import CellGraph.Proofs.Graph.Guard

/-!
# The mirror under assignments

The calls of a graph keep the inputs of the cells a mirror of the targets.  Who has a reference to a cell can put another
one there, with another id or other inputs, and the graph does not look at it.  `Graph.AssignedAt` keeps book of the ids
at which that can have happened.  Every other id stays in line, whatever is done at those (`AssignedAt.inLineOutside`):
its cell is under its own id and has exactly the edges to it as inputs, and a removal leaves nothing of it behind
(`Assigned.mirror_exact`).
-/

namespace CellGraph.Graph

open Relation (ReflTransGen)

variable {g : Graph} {ids : List NodeId} {id : NodeId} {c : Cell}

/-! ### What every change keeps -/

/-- A graph whose ids are in line, except for some. -/
structure InLineOutside (ids : List NodeId) (g : Graph) : Prop where
  guarded : g.Guarded
  nodup_targets : ∀ a, (g.targets a).Nodup
  inLine : ∀ b ∉ ids, g.store.InLine b

theorem WellFormed.inLineOutside (hg : g.WellFormed) (ids : List NodeId) : InLineOutside ids g :=
  ⟨hg.guarded, hg.store.nodup_targets, fun b _ => hg.store.inLine b⟩

namespace InLineOutside

theorem insert (hg : InLineOutside ids g) (hc : c.id ∉ g.ids) :
    InLineOutside ids { g with store := g.store.insert c } := by
  refine ⟨hg.guarded.insert c, fun a => ?_, fun b hb => (hg.inLine b hb).insert hc⟩
  rw [targets, Store.targets_insert]
  split
  · exact List.nodup_nil
  · exact hg.nodup_targets a

theorem detach (hg : InLineOutside ids g) (hid : id ≠ g.root) :
    InLineOutside ids { g with store := g.store.detach id } where
  guarded := hg.guarded.detach hid
  nodup_targets a := (Store.sublist_targets_detach id a).nodup (hg.nodup_targets a)
  inLine b hb := (hg.inLine b hb).detach (hg.nodup_targets id)

theorem connect (hg : InLineOutside ids g) (source target : NodeId) : InLineOutside ids (g.connect source target) := by
  have hguarded := hg.guarded.connect source target
  by_cases hcan : g.canConnect source target = true
  · obtain ⟨-, hsource, htarget, -, hnew, -⟩ := canConnect_iff.1 hcan
    rw [Graph.connect, if_pos hcan] at hguarded ⊢
    exact ⟨hguarded, Store.nodup_targets_link hg.nodup_targets hsource hnew,
      fun b hb => (hg.inLine b hb).link hsource htarget hnew⟩
  · rwa [Graph.connect, if_neg hcan]

theorem disconnect (hg : InLineOutside ids g) (source target : NodeId) :
    InLineOutside ids (g.disconnect source target) where
  guarded := hg.guarded.disconnect source target
  nodup_targets a := (Store.sublist_targets_unlink source target a).nodup (hg.nodup_targets a)
  inLine b hb := (hg.inLine b hb).unlink (hg.nodup_targets source)

/-- Changing cells keeps ids in line if it keeps the ids and the inputs of the cells. -/
theorem of_sameEdges (hg : InLineOutside ids g) {s : Store} (hguarded : ({ g with store := s }).Guarded)
    (hst : g.store.SameEdges s) : InLineOutside ids { g with store := s } := by
  refine ⟨hguarded, fun a => ?_, fun b hb => ?_⟩
  · rw [targets, hst.targets]
    exact hg.nodup_targets a
  · exact (hg.inLine b hb).of_views (hst.own_id b) (fun a => by rw [hst.targets]) (hst.inputs b)

end InLineOutside

theorem kept_inLineOutside (ids : List NodeId) : Kept (InLineOutside ids) where
  create _ hg hid := hg.insert (Store.not_mem_ids_of_freshId? hg.guarded.below_nextId hid)
  insert hg _ hc := hg.insert hc
  detach hg hid := hg.detach hid
  connect source target hg := hg.connect source target
  disconnect source target hg := hg.disconnect source target
  modify hg hf := by
    refine hg.of_sameEdges (hg.guarded.modify _ _) (Store.sameEdges_modify fun c hc => ?_)
    exact ⟨(hf c hc).id, .of_eq (hf c hc).inputs⟩
  map hg hf := hg.of_sameEdges (hg.guarded.map _) (Store.sameEdges_map fun c => ⟨(hf c).id, (hf c).inputs⟩)
  toGraph hgraph := (wellFormed_toGraph hgraph).inLineOutside ids

/-! ### Assignments -/

/-- The cell under an id after an assignment to it. -/
theorem cell?_assign (hid : id ∈ g.ids) (c : Cell) : (g.modify id fun _ => c).cell? id = some c := by
  obtain ⟨d, hd⟩ := Store.mem_ids_iff.1 hid
  rw [cell?, modify, Store.cell?_modify, if_pos rfl, hd, Option.map_some]

theorem inputs_assign (hid : id ∈ g.ids) (c : Cell) : (g.modify id fun _ => c).inputs id = c.inputs :=
  Store.inputs_of_cell? (cell?_assign hid c)

/-- A cell that is in line once it is put under an id: it has that id, and the edges to it as inputs. -/
structure Fits (g : Graph) (id : NodeId) (c : Cell) : Prop where
  member : id ∈ g.ids
  own_id : c.id = id
  mirror : ∀ a, id ∈ g.targets a ↔ a ∈ c.inputs
  nodup_inputs : c.inputs.Nodup

theorem Fits.inLine (h : g.Fits id c) : (g.modify id fun _ => c).store.InLine id := by
  have hinputs : (g.modify id fun _ => c).store.inputs id = c.inputs := inputs_assign h.member c
  refine ⟨fun d hd => ?_, fun a => ?_, ?_⟩
  · rw [← Option.some.inj ((cell?_assign h.member c).symm.trans hd)]
    exact h.own_id
  · rw [hinputs]
    exact h.mirror a
  · rw [hinputs]
    exact h.nodup_inputs

/-- An assignment leaves all other ids as they are. -/
theorem InLineOutside.assign (hg : InLineOutside ids g) (id : NodeId) (c : Cell) :
    InLineOutside (id :: ids) (g.modify id fun _ => c) := by
  refine ⟨hg.guarded.modify id _, hg.nodup_targets, fun b hb => ?_⟩
  rw [List.mem_cons, not_or] at hb
  have hcell : (g.modify id fun _ => c).store.cell? b = g.store.cell? b := by
    rw [Graph.modify, Store.cell?_modify, if_neg hb.1]
  refine (hg.inLine b hb.2).of_views (fun d hd => ⟨d, hcell ▸ hd, rfl⟩) (fun _ => Iff.rfl) ?_
  rw [Store.inputs, hcell, Store.inputs]

theorem InLineOutside.fit (hg : InLineOutside ids g) (h : g.Fits id c) :
    InLineOutside (ids.filter (· != id)) (g.modify id fun _ => c) := by
  have hassign := hg.assign id c
  refine ⟨hassign.guarded, hassign.nodup_targets, fun b hb => ?_⟩
  by_cases hid : b = id
  · exact hid ▸ h.inLine
  · refine hassign.inLine b fun hmem => hb (List.mem_filter.2 ⟨?_, by simpa using hid⟩)
    exact (List.mem_cons.1 hmem).resolve_left hid

/-- What a graph can become by calls and by assignments of whole cells, with the ids at which the last cell that was put
there need not fit. -/
inductive AssignedAt : Graph → List NodeId → Prop
  | new (config : Config) : AssignedAt (.ofConfig config) []
  | call {g : Graph} {ids : List NodeId} (call : Call) : g.AssignedAt ids → (∀ c, call = .add c → c.Reachable) →
      (call.apply g).AssignedAt ids
  | fit {g : Graph} {ids : List NodeId} {id : NodeId} {c : Cell} : g.AssignedAt ids → c.Reachable → g.Fits id c →
      (g.modify id fun _ => c).AssignedAt (ids.filter (· != id))
  | assign {g : Graph} {ids : List NodeId} (id : NodeId) {c : Cell} : g.AssignedAt ids → c.Reachable →
      (g.modify id fun _ => c).AssignedAt (id :: ids)

theorem Assigned.exists_assignedAt (hg : g.Assigned) : ∃ ids, g.AssignedAt ids := by
  induction hg with
  | new config => exact ⟨[], .new config⟩
  | call call _ hadd ih =>
    obtain ⟨ids, hids⟩ := ih
    exact ⟨ids, .call call hids hadd⟩
  | assign id _ hc ih =>
    obtain ⟨ids, hids⟩ := ih
    exact ⟨id :: ids, .assign id hids hc⟩

theorem AssignedAt.assigned (hg : g.AssignedAt ids) : g.Assigned := by
  induction hg with
  | new config => exact .new config
  | call call _ hadd ih => exact .call call ih hadd
  | fit _ hc _ ih => exact .assign _ ih hc
  | assign id _ hc ih => exact .assign id ih hc

/-- Without assignments no id is out of line. -/
theorem Reachable.assignedAt (hg : g.Reachable) : g.AssignedAt [] := by
  induction hg with
  | new config => exact .new config
  | call call _ hadd ih => exact .call call ih hadd

/-- An id is in line unless the last cell that was put there does not fit. -/
theorem AssignedAt.inLineOutside (hg : g.AssignedAt ids) : InLineOutside ids g := by
  induction hg with
  | new config => exact (wellFormed_ofConfig config).inLineOutside []
  | call call _ hadd ih => exact (kept_inLineOutside _).apply ih call hadd
  | fit _ _ hfits ih => exact ih.fit hfits
  | assign id _ _ ih => exact ih.assign id _

/-! ### What is left of a cell that was taken out -/

theorem InLineOutside.not_mem_of_remove {d : Cell} {h : Graph} (hg : InLineOutside ids g)
    (hremove : g.remove id = .ok (d, h)) :
    (id ∉ ids → ∀ a, id ∉ h.targets a) ∧ ∀ b ∉ ids, id ∉ h.inputs b := by
  obtain ⟨-, -, -, -, rfl⟩ := remove_eq_ok hremove
  constructor
  · intro hid a hmem
    rw [targets, (hg.inLine id hid).targets_detach] at hmem
    split at hmem
    · exact absurd hmem List.not_mem_nil
    · simpa using (List.mem_filter.1 hmem).2
  · intro b hb hmem
    rw [inputs, (hg.inLine b hb).inputs_detach (hg.nodup_targets id)] at hmem
    split at hmem
    · exact absurd hmem List.not_mem_nil
    · simpa using (List.mem_filter.1 hmem).2

/-- An assignment keeps an id in line exactly if the new cell has that id and the inputs of the old one. -/
theorem InLineOutside.assign_iff (hg : InLineOutside ids g) (hid : id ∈ g.ids) (hline : id ∉ ids) :
    ((∀ d, (g.modify id fun _ => c).cell? id = some d → d.id = id) ∧
      ∀ a, id ∈ (g.modify id fun _ => c).targets a ↔ a ∈ (g.modify id fun _ => c).inputs id) ↔
    c.id = id ∧ ∀ a, a ∈ c.inputs ↔ a ∈ g.inputs id := by
  have htargets : ∀ a, id ∈ (g.modify id fun _ => c).targets a ↔ a ∈ g.inputs id := (hg.inLine id hline).mirror
  simp only [cell?_assign hid, htargets, inputs_assign hid, Option.some.injEq, forall_eq']
  exact and_congr_right fun _ => forall_congr' fun _ => iff_comm

/-- Whatever cells are put in the place of others, all ids are in line but those at which the last cell that was put
there does not fit, and without assignments that is every id: the cell is under its own id, and it has an input exactly
if it is among the targets of that one.  After a removal no inputs of a cell that is in line mention the id that is gone,
and no targets do if that id was in line.  A cell that is put under an id in line keeps it so exactly if it has the same
id and inputs. -/
theorem Assigned.mirror_exact (hg : g.Assigned) :
    (∃ ids, g.AssignedAt ids) ∧ (g.Reachable → g.AssignedAt []) ∧
    ∀ ids, g.AssignedAt ids →
      (∀ b ∉ ids, (∀ c, g.cell? b = some c → c.id = b) ∧ ∀ a, b ∈ g.targets a ↔ a ∈ g.inputs b) ∧
      (∀ id d h, g.remove id = .ok (d, h) →
        (id ∉ ids → ∀ a, id ∉ h.targets a) ∧ ∀ b ∉ ids, id ∉ h.inputs b) ∧
      ∀ id ∈ g.ids, id ∉ ids → ∀ c : Cell,
        ((∀ d, (g.modify id fun _ => c).cell? id = some d → d.id = id) ∧
          ∀ a, id ∈ (g.modify id fun _ => c).targets a ↔ a ∈ (g.modify id fun _ => c).inputs id) ↔
        c.id = id ∧ ∀ a, a ∈ c.inputs ↔ a ∈ g.inputs id := by
  refine ⟨hg.exists_assignedAt, fun hreachable => hreachable.assignedAt, fun ids hids => ?_⟩
  have hline := hids.inLineOutside
  exact ⟨fun b hb => ⟨(hline.inLine b hb).own_id, (hline.inLine b hb).mirror⟩,
    fun id d h hremove => hline.not_mem_of_remove hremove, fun id hid hnot c => hline.assign_iff hid hnot⟩

/-- Two cells of which the first one feeds the second one. -/
def fed : Graph := (initial.applyAll [.create "a", .create "b"]).connect ⟨1⟩ ⟨2⟩

private theorem reachable_fed : fed.Reachable :=
  ((Reachable.new .standard).applyAll (Call.reachable_of_not_adds rfl)).call (.connect ⟨1⟩ ⟨2⟩)
    fun _ hadd => nomatch hadd

private theorem fed_eq :
    let g := initial.applyAll [.create "a", .create "b"]
    fed = { g with store := g.store.link ⟨1⟩ ⟨2⟩ } := by
  intro g
  have hg : g.Reachable := (Reachable.new .standard).applyAll (Call.reachable_of_not_adds rfl)
  have hpath : ¬ ReflTransGen (fun x y => y ∈ g.targets x) ⟨2⟩ ⟨1⟩ := not_path_of_targets_nil rfl (by decide)
  exact hg.wellFormed.connect_of_accepts
    ⟨by decide, by decide, by decide, fun hroot => absurd hroot (by decide), by decide, hpath⟩

/-- A cell that has another id and no inputs is put in the place of the source.  Its target is still in line, and is taken
out with all that mentions it.  A cell without the input that is put in the place of the target would not be in line. -/
theorem mirror_exact_of_replaced :
    let g := fed.modify ⟨1⟩ fun _ => .bare ⟨9⟩ "c"
    let unfed := fed.modify ⟨2⟩ fun _ => .bare ⟨2⟩ "d"
    g.AssignedAt [⟨1⟩] ∧ ⟨2⟩ ∈ g.targets ⟨1⟩ ∧ (∀ a, ⟨2⟩ ∈ g.targets a ↔ a ∈ g.inputs ⟨2⟩) ∧
      (∃ d h, g.remove ⟨2⟩ = .ok (d, h) ∧ ∀ a, ⟨2⟩ ∉ h.targets a) ∧
      ¬ ∀ a, ⟨2⟩ ∈ unfed.targets a ↔ a ∈ unfed.inputs ⟨2⟩ := by
  intro g unfed
  have hexact := Assigned.mirror_exact reachable_fed.assigned
  have hfed : fed.AssignedAt [] := hexact.2.1 reachable_fed
  have hg : g.AssignedAt [⟨1⟩] := .assign ⟨1⟩ hfed (.bare ⟨9⟩ "c")
  have htarget : ⟨2⟩ ∈ g.targets ⟨1⟩ := by
    simp only [g, fed_eq]
    decide
  have hmem : ⟨2⟩ ∈ fed.ids := by
    rw [fed_eq]
    decide
  have hinputs : fed.inputs ⟨2⟩ = [⟨1⟩] := by
    rw [fed_eq]
    rfl
  obtain ⟨hline, hremove, -⟩ := (Assigned.mirror_exact hg.assigned).2.2 [⟨1⟩] hg
  obtain ⟨d, h, hok⟩ : ∃ d h, g.remove ⟨2⟩ = .ok (d, h) := by
    simp only [g, fed_eq]
    exact ⟨_, _, rfl⟩
  refine ⟨hg, htarget, (hline ⟨2⟩ (by decide)).2, ⟨d, h, hok, (hremove ⟨2⟩ d h hok).1 (by decide)⟩, fun hmirror => ?_⟩
  have hown : ∀ d, unfed.cell? ⟨2⟩ = some d → d.id = ⟨2⟩ := by
    intro d hd
    rw [← Option.some.inj ((cell?_assign hmem (.bare ⟨2⟩ "d")).symm.trans hd)]
    rfl
  have hsame := ((hexact.2.2 [] hfed).2.2 ⟨2⟩ hmem List.not_mem_nil (.bare ⟨2⟩ "d")).1 ⟨hown, hmirror⟩
  have hnone : ⟨1⟩ ∈ ([] : List NodeId) := (hsame.2 ⟨1⟩).2 (by rw [hinputs]; decide)
  exact absurd hnone List.not_mem_nil

/-- A copy of the source that is put in the place of its target.  The target has neither its id nor its input, and once it
is taken out the source still mentions it. -/
theorem not_mirror_of_misplaced :
    ∃ c, fed.cell? ⟨1⟩ = some c ∧
      let g := fed.modify ⟨2⟩ fun _ => c
      g.Assigned ∧ (⟨2⟩ ∈ g.targets ⟨1⟩ ∧ ⟨1⟩ ∉ g.inputs ⟨2⟩) ∧ (g.cell? ⟨2⟩ = some c ∧ c.id ≠ ⟨2⟩) ∧
        ∃ d h, g.remove ⟨2⟩ = .ok (d, h) ∧ ⟨2⟩ ∈ h.targets ⟨1⟩ := by
  obtain ⟨c, hc⟩ : ∃ c, fed.cell? ⟨1⟩ = some c := by
    rw [fed_eq]
    exact ⟨_, rfl⟩
  have hg : (fed.modify ⟨2⟩ fun _ => c).Assigned := .assign ⟨2⟩ reachable_fed.assigned (reachable_fed.cell hc)
  refine ⟨c, hc, hg, ?_⟩
  rw [fed_eq] at hc ⊢
  obtain rfl := Option.some.inj hc
  exact ⟨⟨by decide, by decide⟩, ⟨rfl, by decide⟩, _, _, rfl, by decide⟩

end CellGraph.Graph
