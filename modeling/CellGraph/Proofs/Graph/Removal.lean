import CellGraph.Proofs.Graph.ConnectionOrder

/-!
# Taking a cell out

`Graph.remove` takes a cell out together with its edges.  In a well-formed store this comes to the same as ending these
edges one after the other and then dropping the cell that none is left of: the stores are equal, with the lists in
their order and the same cells stale, whatever the order in which the edges end
(`Store.WellFormed.detach_eq_drop_unlinkAll`).  What ending an edge does to a cell and what removing one of its inputs
does are the same change with another choice of what is gone (`Cell.dropInputs`), and such changes merge.
-/

namespace CellGraph

open Relation (ReflTransGen)

namespace Cell

variable {c : Cell} {gone : NodeId → Bool}

/-- Without the inputs that are gone.  A cell that loses one is stale. -/
def dropInputs (c : Cell) (gone : NodeId → Bool) : Cell :=
  { c with
    inputs := c.inputs.filter fun id => !gone id
    state := if c.inputs.any gone then .stale else c.state }

theorem dropInputs_of_kept (h : ∀ id ∈ c.inputs, gone id = false) : c.dropInputs gone = c := by
  have hany : c.inputs.any gone = false := List.any_eq_false.2 fun id hid => by simp [h id hid]
  have hinputs : c.inputs.filter (fun id => !gone id) = c.inputs :=
    List.filter_eq_self.2 fun id hid => by simp [h id hid]
  simp [dropInputs, hany, hinputs]

theorem dropInputs_congr {gone' : NodeId → Bool} (h : ∀ id ∈ c.inputs, gone id = gone' id) :
    c.dropInputs gone = c.dropInputs gone' := by
  have hany : c.inputs.any gone = c.inputs.any gone' := by
    rw [Bool.eq_iff_iff, List.any_eq_true, List.any_eq_true]
    exact exists_congr fun id => and_congr_right fun hid => by rw [h id hid]
  have hinputs : c.inputs.filter (fun id => !gone id) = c.inputs.filter fun id => !gone' id :=
    List.filter_congr fun id hid => by rw [h id hid]
  rw [dropInputs, hany, hinputs]
  rfl

/-- Inputs that go one after the other could go at once. -/
theorem dropInputs_dropInputs (c : Cell) (gone gone' : NodeId → Bool) :
    (c.dropInputs gone).dropInputs gone' = c.dropInputs fun id => gone id || gone' id := by
  by_cases hkept : ∀ id ∈ c.inputs, gone id = false
  · rw [dropInputs_of_kept hkept]
    exact dropInputs_congr fun id hid => by rw [hkept id hid, Bool.false_or]
  · have hinputs : (c.inputs.filter fun id => !gone id).filter (fun id => !gone' id) =
        c.inputs.filter fun id => !(gone id || gone' id) := by
      rw [List.filter_filter]
      exact List.filter_congr fun id _ => by rw [Bool.not_or, Bool.and_comm]
    simp only [not_forall, Bool.not_eq_false] at hkept
    obtain ⟨id, hid, hgone⟩ := hkept
    have hfirst : c.inputs.any gone = true := List.any_eq_true.2 ⟨id, hid, hgone⟩
    have hboth : (c.inputs.any fun id => gone id || gone' id) = true :=
      List.any_eq_true.2 ⟨id, hid, by rw [hgone, Bool.true_or]⟩
    simp only [dropInputs, hinputs, hfirst, hboth, if_true, ite_self]

/-- At most one input goes, since no id is there twice. -/
theorem removeInput_eq_dropInputs (h : c.inputs.Nodup) (id : NodeId) : c.removeInput id = c.dropInputs (· == id) := by
  by_cases hid : id ∈ c.inputs
  · have hany : c.inputs.any (· == id) = true := List.any_eq_true.2 ⟨id, hid, beq_self_eq_true id⟩
    rw [removeInput, if_pos hid, h.erase_eq_filter, dropInputs, if_pos hany]
    rfl
  · have hkept : ∀ i ∈ c.inputs, (i == id) = false := by
      intro i hi
      refine beq_false_of_ne ?_
      rintro rfl
      exact hid hi
    rw [removeInput, if_neg hid, dropInputs_of_kept hkept]

theorem clearInputs_eq_dropInputs (c : Cell) : c.clearInputs = c.dropInputs fun _ => true := by
  unfold clearInputs
  split
  · rename_i hnone
    rw [dropInputs_of_kept fun id hid => absurd hid (hnone ▸ List.not_mem_nil)]
  · rename_i hsome
    obtain ⟨i, is, hinputs⟩ := List.exists_cons_of_ne_nil hsome
    simp [dropInputs, hinputs, invalidate]

end Cell

namespace Store

variable {s : Store}

/-- The store after several edges have ended, one after the other. -/
def unlinkAll (s : Store) (es : List Edge) : Store := es.foldl (fun s e => s.unlink e.1 e.2) s

theorem ids_unlinkAll (s : Store) (es : List Edge) : (s.unlinkAll es).ids = s.ids := by
  induction es generalizing s with
  | nil => rfl
  | cons e es ih => exact (ih _).trans (ids_unlink e.1 e.2)

theorem nextId_unlinkAll (s : Store) (es : List Edge) : (s.unlinkAll es).nextId = s.nextId := by
  induction es generalizing s with
  | nil => rfl
  | cons e es ih => exact (ih _).trans (nextId_unlink e.1 e.2)

namespace WellFormed

/-- What the end of an edge does to the cells. -/
theorem cell?_unlink (h : s.WellFormed) (a b i : NodeId) :
    (s.unlink a b).cell? i = (s.cell? i).map fun c => c.dropInputs fun j => decide ((j, i) = (a, b)) := by
  rcases hc : s.cell? i with _ | c
  · rw [Option.map_none, Store.cell?_eq_none, ids_unlink, ← Store.cell?_eq_none, hc]
  have hinputs : s.inputs i = c.inputs := inputs_of_cell? hc
  rw [Option.map_some]
  by_cases hedge : b ∈ s.targets a
  · rw [Store.unlink, if_pos (hasEdge_iff.2 hedge), cell?_modify, cell?_modifyTargets, hc]
    by_cases hi : i = b
    · rw [if_pos hi, Option.map_some, Cell.removeInput_eq_dropInputs (hinputs ▸ h.nodup_inputs i)]
      simp [hi, beq_eq_decide]
    · rw [if_neg hi, Cell.dropInputs_of_kept fun j _ => by simp [hi]]
  · rw [unlink_of_not_mem hedge, hc, Cell.dropInputs_of_kept]
    intro j hj
    rw [decide_eq_false_iff_not, Prod.mk.injEq]
    rintro ⟨rfl, rfl⟩
    exact hedge ((h.mirror j i).2 (hinputs ▸ hj))

/-- What taking a cell out does to the others. -/
theorem cell?_detach (h : s.WellFormed) {id i : NodeId} (hi : i ≠ id) :
    (s.detach id).cell? i = (s.cell? i).map fun c => c.dropInputs (· == id) := by
  rw [Store.cell?_detach, if_neg hi]
  rcases hc : s.cell? i with _ | c
  · rfl
  have hinputs : s.inputs i = c.inputs := inputs_of_cell? hc
  rw [Option.map_some, Option.map_some]
  by_cases htarget : i ∈ s.targets id
  · rw [List.count_eq_one_of_mem (h.nodup_targets id) htarget, Function.iterate_one,
      Cell.removeInput_eq_dropInputs (hinputs ▸ h.nodup_inputs i)]
  · rw [List.count_eq_zero_of_not_mem htarget, Function.iterate_zero, id_eq, Cell.dropInputs_of_kept]
    intro j hj
    refine beq_false_of_ne ?_
    rintro rfl
    exact htarget ((h.mirror j i).2 (hinputs ▸ hj))

theorem unlinkAll (h : s.WellFormed) (es : List Edge) : (s.unlinkAll es).WellFormed := by
  induction es generalizing s with
  | nil => exact h
  | cons e es ih => exact ih (h.unlink e.1 e.2)

theorem targets_unlinkAll (h : s.WellFormed) (es : List Edge) (i : NodeId) :
    (s.unlinkAll es).targets i = (s.targets i).filter fun t => decide ((i, t) ∉ es) := by
  induction es generalizing s with
  | nil => simp [Store.unlinkAll]
  | cons e es ih =>
    obtain ⟨a, b⟩ := e
    have hstep := ih (h.unlink a b)
    rw [(h.views_unlink a b i).1, List.filter_filter] at hstep
    refine hstep.trans (List.filter_congr fun t _ => ?_)
    simp only [List.mem_cons, Prod.mk.injEq]
    by_cases he : i = a ∧ t = b
    · simp [he]
    · simp [he, not_and_or.1 he]

theorem cell?_unlinkAll (h : s.WellFormed) (es : List Edge) (i : NodeId) :
    (s.unlinkAll es).cell? i = (s.cell? i).map fun c => c.dropInputs fun j => decide ((j, i) ∈ es) := by
  induction es generalizing s with
  | nil =>
    have hkept : (fun c : Cell => c.dropInputs fun j => decide ((j, i) ∈ ([] : List Edge))) = id :=
      funext fun c => Cell.dropInputs_of_kept fun j _ => by simp
    rw [hkept, Option.map_id]
    rfl
  | cons e es ih =>
    have hstep := ih (h.unlink e.1 e.2)
    rw [h.cell?_unlink, Option.map_map] at hstep
    refine hstep.trans (congrArg (fun f => (s.cell? i).map f) (funext fun c => ?_))
    rw [Function.comp_apply, Cell.dropInputs_dropInputs]
    exact Cell.dropInputs_congr fun j _ => by simp

/-- Taking a cell out is ending its edges, in any order, and dropping it. -/
theorem detach_eq_drop_unlinkAll (h : s.WellFormed) {id : NodeId} {es : List Edge}
    (hes : ∀ a b, (a, b) ∈ es ↔ b ∈ s.targets a ∧ (a = id ∨ b = id)) : s.detach id = (s.unlinkAll es).drop id := by
  refine ext_views ?_ (fun i _ => ?_) (fun i _ => ?_) ?_
  · rw [ids_detach, ids_drop, ids_unlinkAll]
  · rw [cell?_drop]
    by_cases hi : i = id
    · rw [if_pos hi, Store.cell?_detach, if_pos hi]
    · rw [if_neg hi, h.cell?_detach hi, h.cell?_unlinkAll]
      rcases hc : s.cell? i with _ | c
      · rfl
      · refine congrArg some (Cell.dropInputs_congr fun j hj => ?_)
        have hedge : i ∈ s.targets j := (h.mirror j i).2 (by rwa [inputs_of_cell? hc])
        simp [hes, hedge, hi, beq_eq_decide]
  · rw [targets_drop, (h.views_detach id i).1]
    by_cases hi : i = id
    · rw [if_pos hi, if_pos hi]
    · rw [if_neg hi, if_neg hi, h.targets_unlinkAll]
      exact List.filter_congr fun t ht => by simp [hes, ht, hi, bne, beq_eq_decide]
  · rw [nextId_detach]
    exact (nextId_unlinkAll s es).symm

/-- No list mentions a cell that was taken out. -/
theorem not_mem_detach (h : s.WellFormed) (id i : NodeId) :
    id ∉ (s.detach id).targets i ∧ id ∉ (s.detach id).inputs i := by
  rw [(h.views_detach id i).1, (h.views_detach id i).2]
  split
  · exact ⟨List.not_mem_nil, List.not_mem_nil⟩
  · simp [List.mem_filter]

/-- A cell whose edges have all ended has none. -/
theorem isolated_unlinkAll (h : s.WellFormed) {id : NodeId} {es : List Edge}
    (hes : ∀ a b, (a, b) ∈ es ↔ b ∈ s.targets a ∧ (a = id ∨ b = id)) :
    (s.unlinkAll es).targets id = [] ∧ (s.unlinkAll es).inputs id = [] := by
  have hnone : ∀ a b, b ∈ (s.unlinkAll es).targets a → a ≠ id ∧ b ≠ id := by
    intro a b hab
    rw [h.targets_unlinkAll, List.mem_filter, decide_eq_true_iff, hes, not_and, not_or] at hab
    exact hab.2 hab.1
  have hwell := h.unlinkAll es
  refine ⟨List.eq_nil_iff_forall_not_mem.2 fun b hb => (hnone id b hb).1 rfl,
    List.eq_nil_iff_forall_not_mem.2 fun a ha => (hnone a id ((hwell.mirror a id).2 ha)).2 rfl⟩

end WellFormed

end Store

namespace Graph

variable {g : Graph}

theorem applyAll_disconnect (g : Graph) (es : List Edge) :
    g.applyAll (es.map fun e => .disconnect e.1 e.2) = { g with store := g.store.unlinkAll es } := by
  induction es generalizing g with
  | nil => rfl
  | cons e es ih => exact ih (g.disconnect e.1 e.2)

/-- Taking out a member other than the root gives that cell back with its configuration and without inputs.  No list
mentions it any more, and the graph is the one that comes of ending its edges in any order and then dropping it.  The
root is not taken out, and what is not a member cannot be; then nothing changes. -/
theorem Reachable.remove_exact (hg : g.Reachable) (id : NodeId) :
    (∀ c, g.cell? id = some c → id ≠ g.root → ∃ d h, g.remove id = .ok (d, h) ∧
      (d.id = id ∧ d.name = c.name ∧ d.rule = c.rule ∧ d.fallback = c.fallback ∧ d.precision = c.precision ∧
        d.inputs = []) ∧
      (∀ i, id ∉ h.targets i ∧ id ∉ h.inputs i) ∧
      ∀ es : List Edge, es.Perm (g.edgesAt [id]) →
        let apart := g.applyAll (es.map fun e => .disconnect e.1 e.2)
        (apart.targets id = [] ∧ apart.inputs id = []) ∧ h = { apart with store := apart.store.drop id }) ∧
    (id = g.root → g.remove id = .error .rootRemoval ∧ (Call.remove id).apply g = g) ∧
    (id ∉ g.ids → g.remove id = .error (.unknown id) ∧ (Call.remove id).apply g = g) := by
  have hwell := hg.wellFormed
  have hfailed {e : GraphError} (h : g.remove id = .error e) : (Call.remove id).apply g = g := by
    rw [Call.apply, h]
    rfl
  refine ⟨fun c hc hid => ?_, fun hid => ?_, fun hid => ?_⟩
  · have hremove : g.remove id = .ok (c.dropInputs fun _ => true, { g with store := g.store.detach id }) := by
      rw [remove, if_neg (by simpa using hid), Store.remove?_eq hc, Cell.clearInputs_eq_dropInputs]
    have hinputs : (c.dropInputs fun _ => true).inputs = [] := by
      rw [← Cell.clearInputs_eq_dropInputs, Cell.inputs_clearInputs]
    refine ⟨_, _, hremove, ⟨hwell.store.own_id id c hc, rfl, rfl, rfl, rfl, hinputs⟩, hwell.store.not_mem_detach id, ?_⟩
    intro es hes
    have hedges : ∀ a b, (a, b) ∈ es ↔ b ∈ g.store.targets a ∧ (a = id ∨ b = id) := by
      intro a b
      rw [hes.mem_iff, mem_edgesAt, List.mem_singleton, List.mem_singleton]
      rfl
    rw [applyAll_disconnect, hwell.store.detach_eq_drop_unlinkAll hedges]
    exact ⟨hwell.store.isolated_unlinkAll hedges, rfl⟩
  · have hremove : g.remove id = .error .rootRemoval := by
      rw [remove, if_pos (by simpa using hid)]
    exact ⟨hremove, hfailed hremove⟩
  · have hroot : id ≠ g.root := fun heq => hid (heq ▸ hwell.root_mem)
    have hremove : g.remove id = .error (.unknown id) := by
      rw [remove, if_neg (by simpa using hroot), Store.remove?_eq_none hid]
    exact ⟨hremove, hfailed hremove⟩

/-- A cell that is fed and feeds the root.  Its edges can also end in the other order, and neither the root nor a cell
that is not there is taken out. -/
theorem remove_exact_of_relay :
    let bare := initial.applyAll [.create "a", .create "b"]
    let g := (bare.connect ⟨1⟩ ⟨0⟩).connect ⟨2⟩ ⟨1⟩
    let apart := g.applyAll [.disconnect ⟨2⟩ ⟨1⟩, .disconnect ⟨1⟩ ⟨0⟩]
    (g.targets ⟨2⟩ = [⟨1⟩] ∧ g.targets ⟨1⟩ = [⟨0⟩]) ∧
      (∃ d h, g.remove ⟨1⟩ = .ok (d, h) ∧ (d.name = "a" ∧ d.inputs = []) ∧ (∀ i, ⟨1⟩ ∉ h.targets i) ∧
        h = { apart with store := apart.store.drop ⟨1⟩ }) ∧
      g.remove ⟨0⟩ = .error .rootRemoval ∧ g.remove ⟨3⟩ = .error (.unknown ⟨3⟩) := by
  intro bare g apart
  have hbare : bare.Reachable := (Reachable.new .standard).applyAll (Call.reachable_of_not_adds rfl)
  have hfirst : bare.connect ⟨1⟩ ⟨0⟩ = { bare with store := bare.store.link ⟨1⟩ ⟨0⟩ } :=
    hbare.wellFormed.connect_of_accepts (hbare.wellFormed.accepts_root (by decide) (by decide) (by decide))
  have hlinks : (bare.connect ⟨1⟩ ⟨0⟩).Reachable := hbare.call (.connect ⟨1⟩ ⟨0⟩) fun _ hadd => nomatch hadd
  have hpath : ¬ ReflTransGen (fun x y => y ∈ (bare.connect ⟨1⟩ ⟨0⟩).targets x) ⟨1⟩ ⟨2⟩ := by
    rw [hfirst]
    intro hpath
    rcases hpath.cases_head with heq | ⟨next, hedge, hrest⟩
    · exact absurd heq (by decide)
    · obtain rfl : next = ⟨0⟩ := List.mem_singleton.1 hedge
      have hsink : ({ bare with store := bare.store.link ⟨1⟩ ⟨0⟩ } : Graph).targets ⟨0⟩ = [] := rfl
      exact not_path_of_targets_nil hsink (by decide) hrest
  have hsecond : g = { bare with store := (bare.store.link ⟨1⟩ ⟨0⟩).link ⟨2⟩ ⟨1⟩ } := by
    have hlinked : (bare.connect ⟨1⟩ ⟨0⟩).Accepts ⟨2⟩ ⟨1⟩ := by
      refine ⟨?_, ?_, ?_, ?_, ?_, hpath⟩ <;> rw [hfirst] <;> decide
    have hconnect : g = _ := hlinks.wellFormed.connect_of_accepts hlinked
    rw [hconnect, hfirst]
  have hg : g.Reachable := hlinks.call (.connect ⟨2⟩ ⟨1⟩) fun _ hadd => nomatch hadd
  obtain ⟨c, hc, hname⟩ : ∃ c, g.cell? ⟨1⟩ = some c ∧ c.name = "a" := by
    rw [hsecond]
    exact ⟨_, rfl, rfl⟩
  have hroot : g.root = ⟨0⟩ := by rw [hsecond]; rfl
  have hedges : g.edgesAt [⟨1⟩] = [(⟨1⟩, ⟨0⟩), (⟨2⟩, ⟨1⟩)] := by
    rw [hsecond]
    rfl
  obtain ⟨d, h, hremove, ⟨-, hd, -, -, -, hinputs⟩, hgone, horder⟩ :=
    (Reachable.remove_exact hg ⟨1⟩).1 c hc (by rw [hroot]; decide)
  have hswap : [(⟨2⟩, ⟨1⟩), (⟨1⟩, ⟨0⟩)].Perm (g.edgesAt [⟨1⟩]) := hedges ▸ .swap ..
  refine ⟨?_, ⟨d, h, hremove, ⟨hd.trans hname, hinputs⟩, fun i => (hgone i).1, (horder _ hswap).2⟩,
    ((Reachable.remove_exact hg ⟨0⟩).2.1 hroot.symm).1, ((Reachable.remove_exact hg ⟨3⟩).2.2 ?_).1⟩
  · rw [hsecond]
    decide
  · rw [hsecond]
    decide

end Graph

end CellGraph
