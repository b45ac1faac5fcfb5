import CellGraph.Proofs.Graph.Clean
import CellGraph.Proofs.Graph.EdgeLog

/-!
# The order of connection

What a call does to the edges of a graph is one acceptance, some edges that end, or nothing (`Call.edgeEvents`), and the
lists of inputs and of targets change just so (`Call.edgeStep`).  So after any number of calls the lists of a cell are
what the log of all calls makes of those in the beginning (`EdgeHistory.applyAll`): first what was there and has never
ended, in the old order, then what was accepted and has not ended since, in the order of the last acceptance.
-/

namespace CellGraph

/-! ### What calls do to edges -/

namespace Graph

open EdgeLog

variable {g h : Graph}

/-- The edges into a cell, in the order of its inputs. -/
def edgesInto (g : Graph) (id : NodeId) : List Edge := (g.inputs id).map fun a => (a, id)

/-- The edges from a cell, in the order of its targets. -/
def edgesFrom (g : Graph) (id : NodeId) : List Edge := (g.targets id).map fun b => (id, b)

/-- The edges that touch some of the cells. -/
def edgesAt (g : Graph) (ids : List NodeId) : List Edge :=
  (g.ids.flatMap g.edgesFrom).filter fun e => ids.contains e.1 || ids.contains e.2

/-- What a call does to the edges of a graph, if it does not put another graph in its place. -/
def Call.edgeEvents : Call → Graph → List EdgeEvent
  | .connect a b, g => if g.canConnect a b then [.accepted (a, b)] else []
  | .disconnect a b, g => if g.isConnected a b then [.ended (a, b)] else []
  | .remove id, g => if id == g.root then [] else (g.edgesAt [id]).map .ended
  | .clean, g => (g.edgesAt g.clean.1).map .ended
  | _, _ => []

/-- What several calls do to the edges, one after the other. -/
def edgeLog (g : Graph) : List Call → List EdgeEvent
  | [] => []
  | call :: calls => call.edgeEvents g ++ (call.apply g).edgeLog calls

/-- Whether a call can put another graph in the place of the present one. -/
def Call.replaces : Call → Bool
  | .restore _ | .read _ | .readBytes _ => true
  | _ => false

/-- The inputs of a cell by a log: those in the graph whose edges never end, in their order, and then the sources of the
edges that stand, in the order of their last acceptance. -/
def inputsBy (g : Graph) (log : List EdgeEvent) (id : NodeId) : List NodeId :=
  (replay (g.edgesInto id) log fun e => e.2 == id).map (·.1)

/-- The targets of a cell by a log: those in the graph whose edges never end, in their order, and then the ends of the
edges that stand, in the order of their last acceptance. -/
def targetsBy (g : Graph) (log : List EdgeEvent) (id : NodeId) : List NodeId :=
  (replay (g.edgesFrom id) log fun e => e.1 == id).map (·.2)

/-- How the lists change: a new edge is accepted and comes last on both sides, or some edges end. -/
inductive EdgeStep (g h : Graph) : List EdgeEvent → Prop
  | accepted {a b : NodeId} : b ∉ g.targets a →
      (∀ id, h.inputs id = if id = b then g.inputs id ++ [a] else g.inputs id) →
      (∀ id, h.targets id = if id = a then g.targets id ++ [b] else g.targets id) → EdgeStep g h [.accepted (a, b)]
  | ended (es : List Edge) : (∀ id, h.inputs id = (g.inputs id).filter fun a => decide ((a, id) ∉ es)) →
      (∀ id, h.targets id = (g.targets id).filter fun b => decide ((id, b) ∉ es)) → EdgeStep g h (es.map .ended)

/-- A change that keeps all lists. -/
private theorem EdgeStep.of_same (hinputs : ∀ id, h.inputs id = g.inputs id)
    (htargets : ∀ id, h.targets id = g.targets id) : EdgeStep g h [] := by
  refine .ended [] (fun id => ?_) (fun id => ?_)
  · rw [hinputs]
    simp
  · rw [htargets]
    simp

private theorem EdgeStep.insert {c : Cell} (hc : c.id ∉ g.ids) :
    EdgeStep g { g with store := g.store.insert c } [] :=
  .of_same (Store.inputs_insert_of_not_mem hc) (Store.targets_insert_of_not_mem hc)

theorem mem_edgesAt {ids : List NodeId} {a b : NodeId} :
    (a, b) ∈ g.edgesAt ids ↔ b ∈ g.targets a ∧ (a ∈ ids ∨ b ∈ ids) := by
  have hmem : (a, b) ∈ g.ids.flatMap g.edgesFrom ↔ b ∈ g.targets a := by
    simp only [List.mem_flatMap, edgesFrom, List.mem_map, Prod.mk.injEq]
    constructor
    · rintro ⟨_, -, _, hb, rfl, rfl⟩
      exact hb
    · exact fun hb => ⟨a, Store.mem_ids_of_mem_targets hb, b, hb, rfl, rfl⟩
  rw [edgesAt, List.mem_filter, hmem]
  simp

/-- What is left of a list when some of its elements go, or all of them do. -/
private theorem filter_gone {ids gone : List NodeId} {all : Prop} [Decidable all] {p : NodeId → Prop} [DecidablePred p]
    (hp : ∀ i ∈ ids, p i ↔ i ∈ gone ∨ all) :
    (if all then [] else ids.filter fun i => decide (i ∉ gone)) = ids.filter fun i => decide (¬ p i) := by
  split
  · rename_i hall
    symm
    rw [List.filter_eq_nil_iff]
    intro i hi
    simpa using (hp i hi).2 (Or.inr hall)
  · rename_i hall
    apply List.filter_congr
    intro i hi
    rw [decide_eq_decide, hp i hi, or_iff_left hall]

/-- Cells that are gone have taken their edges with them. -/
private theorem EdgeStep.of_gone (hg : g.WellFormed) {gone : List NodeId}
    (hinputs : ∀ id, h.inputs id = if id ∈ gone then [] else (g.inputs id).filter fun a => decide (a ∉ gone))
    (htargets : ∀ id, h.targets id = if id ∈ gone then [] else (g.targets id).filter fun b => decide (b ∉ gone)) :
    EdgeStep g h ((g.edgesAt gone).map .ended) := by
  refine .ended _ (fun id => (hinputs id).trans (filter_gone fun a ha => ?_))
    (fun id => (htargets id).trans (filter_gone fun b hb => ?_))
  · have hedge : id ∈ g.targets a := (hg.store.mirror a id).2 ha
    rw [mem_edgesAt, and_iff_right hedge]
  · rw [mem_edgesAt, and_iff_right hb, or_comm]

private theorem EdgeStep.detach (hg : g.WellFormed) (id : NodeId) :
    EdgeStep g { g with store := g.store.detach id } ((g.edgesAt [id]).map .ended) := by
  have hfilter : ∀ is : List NodeId, is.filter (· != id) = is.filter fun i => decide (¬ i = id) := by
    intro is
    apply List.filter_congr
    intro i _
    by_cases hi : i = id <;> simp [hi]
  refine .of_gone hg (fun i => ?_) (fun i => ?_)
  · simp only [List.mem_singleton]
    rw [← hfilter]
    exact (hg.store.views_detach id i).2
  · simp only [List.mem_singleton]
    rw [← hfilter]
    exact (hg.store.views_detach id i).1

private theorem EdgeStep.disconnect (hg : g.WellFormed) (a b : NodeId) :
    EdgeStep g (g.disconnect a b) ([(a, b)].map .ended) := by
  have hviews := hg.store.views_unlink a b
  refine .ended [(a, b)] (fun id => (hviews id).2.trans ?_) (fun id => (hviews id).1.trans ?_)
  · apply List.filter_congr
    intro x _
    by_cases hx : x = a <;> by_cases hid : id = b <;> simp [hx, hid]
  · apply List.filter_congr
    intro y _
    by_cases hid : id = a <;> by_cases hy : y = b <;> simp [hid, hy]

private theorem Cleaned.edgeStep {removed : List NodeId} (hc : Cleaned g h removed) (hg : g.WellFormed) :
    EdgeStep g h ((g.edgesAt removed).map .ended) := by
  have hnone : ∀ id, id ∉ h.ids → h.inputs id = [] ∧ h.targets id = [] :=
    fun id hid => ⟨Store.inputs_of_not_mem hid, Store.targets_of_not_mem hid⟩
  refine .of_gone hg (fun id => ?_) (fun id => ?_)
  · split
    · rename_i hgone
      exact (hnone id fun hid => (hc.mem_ids.1 hid).2 hgone).1
    · rename_i hleft
      have hkept : (g.inputs id).filter (fun a => decide (a ∉ removed)) = g.inputs id := by
        rw [List.filter_eq_self]
        exact fun a ha => decide_eq_true (hc.closed ((hg.store.mirror a id).2 ha) hleft)
      rw [hkept]
      by_cases hid : id ∈ h.ids
      · exact hc.inputs hid
      · have hold : id ∉ g.ids := fun hmem => hid (hc.mem_ids.2 ⟨hmem, hleft⟩)
        exact (hnone id hid).1.trans (Store.inputs_of_not_mem hold).symm
  · split
    · rename_i hgone
      exact (hnone id fun hid => (hc.mem_ids.1 hid).2 hgone).2
    · rename_i hleft
      exact hc.targets id hleft

private theorem evaluate_lists (g : Graph) :
    (∀ id, g.evaluate.2.inputs id = g.inputs id) ∧ ∀ id, g.evaluate.2.targets id = g.targets id := by
  refine Store.evaluate_keeps (P := fun s => (∀ id, s.inputs id = g.inputs id) ∧ ∀ id, s.targets id = g.targets id)
    g.root ?_ ⟨fun _ => rfl, fun _ => rfl⟩
  rintro s id c ⟨hinputs, htargets⟩ hc
  refine ⟨fun i => (Store.inputs_modify_of_eq (fun d hd => ?_) i).trans (hinputs i), htargets⟩
  rw [← Option.some.inj (hc.symm.trans hd)]
  exact c.inputs_compile

/-- The events of a call say how it changes the lists. -/
theorem Call.edgeStep (hg : g.WellFormed) (call : Call) (hstays : call.replaces = false) :
    EdgeStep g (call.apply g) (call.edgeEvents g) := by
  have hsame : EdgeStep g g [] := .of_same (fun _ => rfl) fun _ => rfl
  cases call with
  | create name =>
    rcases g.create_cases name with ⟨id, hid, h⟩ | ⟨-, h⟩
    · rw [Call.apply, h]
      exact .insert (Store.not_mem_ids_of_freshId? hg.store.below_nextId hid)
    · rw [Call.apply, h]
      exact hsame
  | add c =>
    refine orSelf_keeps (P := fun h => EdgeStep g h []) hsame fun h hok => ?_
    rcases add_eq_ok hok with rfl | ⟨hc, rfl⟩
    · exact hsame
    · exact .insert hc
  | remove id =>
    rw [Call.apply, Graph.remove, Call.edgeEvents]
    split
    · exact hsame
    · rcases hd : g.store.cell? id with _ | d
      -- an id without a cell has no edges that could end
      · have hid := Store.cell?_eq_none.1 hd
        have hnone : g.edgesAt [id] = [] := by
          rw [List.eq_nil_iff_forall_not_mem]
          rintro ⟨a, b⟩ hedge
          rw [mem_edgesAt, List.mem_singleton, List.mem_singleton] at hedge
          obtain ⟨ha, hb⟩ := hg.store.mem_ids_of_edge hedge.1
          rcases hedge.2 with rfl | rfl
          · exact hid ha
          · exact hid hb
        rw [Store.remove?_eq_none hid, hnone]
        exact hsame
      · rw [Store.remove?_eq hd]
        exact .detach hg id
  | connect a b =>
    rw [Call.apply, Graph.connect, Call.edgeEvents]
    split
    · rename_i hcan
      obtain ⟨-, ha, hb, -, hnew, -⟩ := canConnect_iff.1 hcan
      exact .accepted hnew (Store.inputs_link_of_mem hb a) (Store.targets_link_of_mem ha b)
    · exact hsame
  | disconnect a b =>
    rw [Call.edgeEvents]
    split
    · exact .disconnect hg a b
    · rename_i hedge
      rw [Call.apply, Graph.disconnect, Store.unlink_of_not_mem fun h => hedge (Store.hasEdge_iff.2 h)]
      exact hsame
  | clean => exact hg.cleaned.edgeStep hg
  | evaluate => exact .of_same g.evaluate_lists.1 g.evaluate_lists.2
  | trace id => exact .of_same g.evaluate_lists.1 g.evaluate_lists.2
  | diagnostics => exact .of_same (fun id => Store.inputs_map_of_eq Cell.inputs_compile id) fun _ => rfl
  | onCell id call =>
    exact .of_same (fun i => Store.inputs_modify_of_eq (fun c _ => call.inputs_apply c) i) fun _ => rfl
  | restore d => exact Bool.noConfusion hstays
  | read text => exact Bool.noConfusion hstays
  | readBytes bytes => exact Bool.noConfusion hstays

/-! ### What the lists show after calls -/

/-- The lists of the second graph are what the log makes of those of the first one. -/
structure EdgeHistory (g : Graph) (log : List EdgeEvent) (h : Graph) : Prop where
  inputs : ∀ id, h.edgesInto id = replay (g.edgesInto id) log fun e => e.2 == id
  targets : ∀ id, h.edgesFrom id = replay (g.edgesFrom id) log fun e => e.1 == id

namespace EdgeHistory

variable {k : Graph} {log events : List EdgeEvent}

theorem mem_targets_iff (hh : EdgeHistory g log h) {a b : NodeId} :
    b ∈ h.targets a ↔ b ∈ g.targets a ∧ .ended (a, b) ∉ log ∨ last? log (a, b) = some (.accepted (a, b)) := by
  have hmem : ∀ g : Graph, b ∈ g.targets a ↔ (a, b) ∈ g.edgesFrom a := by
    intro g
    simp [edgesFrom]
  rw [hmem, hh.targets, mem_replay, ← hmem]
  simp

theorem step (hh : EdgeHistory g log h) (hstep : EdgeStep h k events) : EdgeHistory g (log ++ events) k := by
  cases hstep with
  | @accepted a b hnew hinputs htargets =>
    have hstanding : (a, b) ∉ standing log := fun hmem => hnew (hh.mem_targets_iff.2 (Or.inr (mem_standing.1 hmem)))
    constructor
    · intro id
      rw [replay_accepted hstanding, ← hh.inputs, edgesInto, hinputs, edgesInto]
      by_cases hid : id = b
      · simp [hid]
      · simp [hid, Ne.symm hid]
    · intro id
      rw [replay_accepted hstanding, ← hh.targets, edgesFrom, htargets, edgesFrom]
      by_cases hid : id = a
      · simp [hid]
      · simp [hid, Ne.symm hid]
  | ended es hinputs htargets =>
    constructor
    · intro id
      rw [replay_ended, ← hh.inputs, edgesInto, hinputs, edgesInto, List.filter_map]
      rfl
    · intro id
      rw [replay_ended, ← hh.targets, edgesFrom, htargets, edgesFrom, List.filter_map]
      rfl

theorem applyAll (hh : EdgeHistory g log h) (hreach : h.Reachable) {calls : List Call}
    (hadd : ∀ call ∈ calls, ∀ c, call = .add c → c.Reachable) (hstays : ∀ call ∈ calls, call.replaces = false) :
    EdgeHistory g (log ++ h.edgeLog calls) (h.applyAll calls) := by
  induction calls generalizing log h with
  | nil =>
    rw [edgeLog, List.append_nil]
    exact hh
  | cons call calls ih =>
    rw [edgeLog, ← List.append_assoc]
    exact ih (hh.step (call.edgeStep hreach.wellFormed (hstays call (List.mem_cons_self ..))))
      (hreach.call call (hadd call (List.mem_cons_self ..))) (fun call hmem => hadd call (List.mem_cons_of_mem _ hmem))
      fun call hmem => hstays call (List.mem_cons_of_mem _ hmem)

theorem refl (g : Graph) : EdgeHistory g [] g := ⟨fun _ => replay_nil.symm, fun _ => replay_nil.symm⟩

/-- An edge is there if it was accepted last, or if it was there from the start and nothing has happened to it. -/
theorem isConnected_iff (hh : EdgeHistory g log h) {a b : NodeId} : h.isConnected a b = true ↔
    last? log (a, b) = some (.accepted (a, b)) ∨ last? log (a, b) = none ∧ g.isConnected a b = true := by
  rw [isConnected, Store.hasEdge_iff, isConnected, Store.hasEdge_iff]
  refine hh.mem_targets_iff.trans ⟨?_, ?_⟩
  · rintro (⟨hold, hnever⟩ | hlast)
    · rcases hlast : last? log (a, b) with _ | event
      · exact Or.inr ⟨rfl, hold⟩
      · obtain ⟨hmem, hedge⟩ := edge_of_last? hlast
        cases event with
        | accepted e =>
          obtain rfl : e = (a, b) := hedge
          exact Or.inl rfl
        | ended e =>
          obtain rfl : e = (a, b) := hedge
          exact absurd hmem hnever
    · exact Or.inl hlast
  · rintro (hlast | ⟨hnone, hold⟩)
    · exact Or.inr hlast
    · exact Or.inl ⟨hold, fun hmem => last?_eq_none.1 hnone _ hmem rfl⟩

/-- An edge that is gone in the end might as well not have been there in the beginning, and nothing that happened to it
matters. -/
theorem without (hh : EdgeHistory g log h) (hg : g.WellFormed) {a b : NodeId} (hgone : b ∉ h.targets a) :
    EdgeHistory (g.disconnect a b) (EdgeLog.without (a, b) log) h := by
  have hdisconnect := (refl g).step (.disconnect hg a b)
  have hstanding : (a, b) ∉ standing log := fun hmem => hgone (hh.mem_targets_iff.2 (Or.inr (mem_standing.1 hmem)))
  have hended : b ∈ g.targets a → .ended (a, b) ∈ log := by
    intro hold
    by_contra hnever
    exact hgone (hh.mem_targets_iff.2 (Or.inl ⟨hold, hnever⟩))
  constructor
  · intro id
    have hinto : (a, b) ∈ g.edgesInto id → .ended (a, b) ∈ log := by
      intro hmem
      obtain ⟨_, hinput, heq⟩ := List.mem_map.1 hmem
      obtain ⟨rfl, rfl⟩ := Prod.mk.inj heq
      exact hended ((hg.store.mirror _ _).2 hinput)
    rw [hh.inputs, hdisconnect.inputs, replay_ended, replay_nil, replay_without hinto hstanding]
  · intro id
    have hfrom : (a, b) ∈ g.edgesFrom id → .ended (a, b) ∈ log := by
      intro hmem
      obtain ⟨_, htarget, heq⟩ := List.mem_map.1 hmem
      obtain ⟨rfl, rfl⟩ := Prod.mk.inj heq
      exact hended htarget
    rw [hh.targets, hdisconnect.targets, replay_ended, replay_nil, replay_without hfrom hstanding]

theorem inputs_eq (hh : EdgeHistory g log h) (id : NodeId) : h.inputs id = g.inputsBy log id := by
  rw [inputsBy, ← hh.inputs, edgesInto, List.map_map]
  exact (List.map_id _).symm

theorem targets_eq (hh : EdgeHistory g log h) (id : NodeId) : h.targets id = g.targetsBy log id := by
  rw [targetsBy, ← hh.targets, edgesFrom, List.map_map]
  exact (List.map_id _).symm

end EdgeHistory

/-- After any calls but such that put another graph in place, the lists of every cell are what the log of the edges
makes of those in the beginning.  An edge that is gone leaves no trace: the lists are the same as if it had not been
there and nothing had happened to it. -/
theorem Reachable.edges_of_log (hg : g.Reachable) {calls : List Call}
    (hadd : ∀ call ∈ calls, ∀ c, call = .add c → c.Reachable) (hstays : ∀ call ∈ calls, call.replaces = false) :
    (∀ id, (g.applyAll calls).inputs id = g.inputsBy (g.edgeLog calls) id) ∧
      (∀ id, (g.applyAll calls).targets id = g.targetsBy (g.edgeLog calls) id) ∧
      (∀ a b, (g.applyAll calls).isConnected a b = true ↔
        last? (g.edgeLog calls) (a, b) = some (.accepted (a, b)) ∨
          last? (g.edgeLog calls) (a, b) = none ∧ g.isConnected a b = true) ∧
      ∀ a b, (g.applyAll calls).isConnected a b = false →
        (∀ id, (g.applyAll calls).inputs id = (g.disconnect a b).inputsBy (without (a, b) (g.edgeLog calls)) id) ∧
        ∀ id, (g.applyAll calls).targets id = (g.disconnect a b).targetsBy (without (a, b) (g.edgeLog calls)) id := by
  have hh := (EdgeHistory.refl g).applyAll hg hadd hstays
  rw [List.nil_append] at hh
  refine ⟨hh.inputs_eq, hh.targets_eq, fun a b => hh.isConnected_iff, fun a b hgone => ?_⟩
  have hnone : b ∉ (g.applyAll calls).targets a := fun hedge => Bool.eq_false_iff.1 hgone (Store.hasEdge_iff.2 hedge)
  have hwithout := hh.without hg.wellFormed hnone
  exact ⟨hwithout.inputs_eq, hwithout.targets_eq⟩

/-- One cell feeds the root, then another one in its place. -/
theorem edges_of_log_of_reconnected :
    let g := initial.applyAll [.create "a", .create "b"]
    let calls : List Call := [.connect ⟨1⟩ ⟨0⟩, .disconnect ⟨1⟩ ⟨0⟩, .connect ⟨2⟩ ⟨0⟩]
    g.edgeLog calls = [.accepted (⟨1⟩, ⟨0⟩), .ended (⟨1⟩, ⟨0⟩), .accepted (⟨2⟩, ⟨0⟩)] ∧
      (g.applyAll calls).inputs ⟨0⟩ = [⟨2⟩] ∧ (g.applyAll calls).targets ⟨1⟩ = [] := by
  intro g calls
  have hg : g.Reachable := (Reachable.new .standard).applyAll (Call.reachable_of_not_adds rfl)
  have hfirst : g.canConnect ⟨1⟩ ⟨0⟩ = true :=
    hg.wellFormed.canConnect_iff_accepts.2 (hg.wellFormed.accepts_root (by decide) (by decide) (by decide))
  have hlink : g.connect ⟨1⟩ ⟨0⟩ = { g with store := g.store.link ⟨1⟩ ⟨0⟩ } := by rw [Graph.connect, if_pos hfirst]
  have hlinked : (g.connect ⟨1⟩ ⟨0⟩).isConnected ⟨1⟩ ⟨0⟩ = true := by
    rw [hlink]
    decide
  have hfreed : ((g.connect ⟨1⟩ ⟨0⟩).disconnect ⟨1⟩ ⟨0⟩).WellFormed :=
    (hg.wellFormed.connect ⟨1⟩ ⟨0⟩).disconnect ⟨1⟩ ⟨0⟩
  have hsecond : ((g.connect ⟨1⟩ ⟨0⟩).disconnect ⟨1⟩ ⟨0⟩).canConnect ⟨2⟩ ⟨0⟩ = true := by
    rw [hlink] at hfreed ⊢
    exact hfreed.canConnect_iff_accepts.2 (hfreed.accepts_root (by decide) (by decide) (by decide))
  have hlog : g.edgeLog calls = [.accepted (⟨1⟩, ⟨0⟩), .ended (⟨1⟩, ⟨0⟩), .accepted (⟨2⟩, ⟨0⟩)] := by
    simp only [calls, edgeLog, Call.edgeEvents, Call.apply, hfirst, hlinked, hsecond, if_true, List.append_nil,
      List.cons_append, List.nil_append]
  have hstays : ∀ call ∈ calls, call.replaces = false := by
    simp only [calls, List.mem_cons, List.not_mem_nil, or_false]
    rintro call (rfl | rfl | rfl) <;> rfl
  obtain ⟨hinputs, htargets, -⟩ := Reachable.edges_of_log hg (Call.reachable_of_not_adds rfl) hstays
  rw [hinputs, htargets, hlog]
  exact ⟨rfl, by decide, by decide⟩

end Graph

end CellGraph
