import CellGraph.Proofs.Cell.Forgetting
import CellGraph.Proofs.Graph.Calls

/-!
# Stores without their programs

Two stores are like each other if they differ at most in what was compiled of their cells (`Store.Like`).  Such stores
have the same edges and the same orders, and every operation of a store keeps them like each other.  Evaluating a store
leaves it like itself (`like_evaluate`).
-/

namespace CellGraph.Store

/-- The store as if no cell of it had ever been compiled. -/
def forget (s : Store) : Store := s.map Cell.forget

/-- Two stores that differ at most in what was compiled of their cells. -/
structure Like (s t : Store) : Prop where
  ids : s.ids = t.ids
  cell? : ∀ id, (s.cell? id).map Cell.forget = (t.cell? id).map Cell.forget
  targets : ∀ id, s.targets id = t.targets id
  nextId : s.nextId = t.nextId

namespace Like

variable {s t : Store}

theorem refl (s : Store) : s.Like s := ⟨rfl, fun _ => rfl, fun _ => rfl, rfl⟩

theorem symm (h : s.Like t) : t.Like s :=
  ⟨h.ids.symm, fun id => (h.cell? id).symm, fun id => (h.targets id).symm, h.nextId.symm⟩

theorem trans {u : Store} (hst : s.Like t) (htu : t.Like u) : s.Like u :=
  ⟨hst.ids.trans htu.ids, fun id => (hst.cell? id).trans (htu.cell? id),
    fun id => (hst.targets id).trans (htu.targets id), hst.nextId.trans htu.nextId⟩

/-! ### What is the same -/

theorem targetLists (h : s.Like t) : s.targetLists = t.targetLists := targetLists_ext h.ids fun id _ => h.targets id

theorem forget (h : s.Like t) : s.forget = t.forget := by
  have hcells : s.cells.map Cell.forget = t.cells.map Cell.forget := by
    refine IdMap.ext_get? ?_ fun id _ => ?_
    · rw [IdMap.ids_map, IdMap.ids_map]
      exact h.ids
    · rw [IdMap.get?_map, IdMap.get?_map]
      exact h.cell? id
  unfold Store.forget Store.map
  simp only [hcells, h.targetLists, h.nextId]

/-- An id has no cell in either store, or cells that differ at most in what was compiled. -/
theorem cell_cases (h : s.Like t) (id : NodeId) : (s.cell? id = none ∧ t.cell? id = none) ∨
    ∃ c d, s.cell? id = some c ∧ t.cell? id = some d ∧ c.forget = d.forget := by
  have hcell := h.cell? id
  rcases hs : s.cell? id with _ | c <;> rcases ht : t.cell? id with _ | d
  · exact Or.inl ⟨rfl, rfl⟩
  · rw [hs, ht] at hcell
    nomatch hcell
  · rw [hs, ht] at hcell
    nomatch hcell
  · rw [hs, ht] at hcell
    exact Or.inr ⟨c, d, rfl, rfl, Option.some.inj hcell⟩

theorem cell?_eq_none (h : s.Like t) {id : NodeId} (hs : s.cell? id = none) : t.cell? id = none := by
  rcases h.cell_cases id with ⟨-, ht⟩ | ⟨c, -, hc, -, -⟩
  · exact ht
  · nomatch hc.symm.trans hs

theorem exists_cell? (h : s.Like t) {id : NodeId} {c : Cell} (hs : s.cell? id = some c) :
    ∃ d, t.cell? id = some d ∧ c.forget = d.forget := by
  rcases h.cell_cases id with ⟨hnone, -⟩ | ⟨c', d, hc, ht, hcd⟩
  · nomatch hnone.symm.trans hs
  · obtain rfl := Option.some.inj (hc.symm.trans hs)
    exact ⟨d, ht, hcd⟩

theorem contains (h : s.Like t) (id : NodeId) : s.contains id = t.contains id := by
  rw [Bool.eq_iff_iff, contains_iff, contains_iff, h.ids]

theorem size (h : s.Like t) : s.size = t.size := by
  rw [Store.size, ← IdMap.length_ids, Store.size, ← IdMap.length_ids]
  exact congrArg List.length h.ids

theorem inputs (h : s.Like t) (id : NodeId) : s.inputs id = t.inputs id := by
  rcases h.cell_cases id with ⟨hs, ht⟩ | ⟨c, d, hs, ht, hcd⟩
  · rw [Store.inputs, hs, Store.inputs, ht]
  · rw [inputs_of_cell? hs, inputs_of_cell? ht]
    exact congrArg Record.inputs (Cell.record_of_forget hcd)

theorem hasEdge (h : s.Like t) (a b : NodeId) : s.hasEdge a b = t.hasEdge a b := by
  rw [Store.hasEdge, h.targets, Store.hasEdge]

theorem freshId? (h : s.Like t) : s.freshId? = t.freshId? := by
  have hcontains : (fun n : Nat => !s.contains ⟨.ofNat n⟩) = fun n => !t.contains ⟨.ofNat n⟩ :=
    funext fun n => by rw [h.contains]
  simp only [Store.freshId?, h.nextId, h.size, hcontains]

theorem sortWith (h : s.Like t) (extra : Option (NodeId × NodeId)) : s.sortWith extra = t.sortWith extra := by
  simp only [Store.sortWith, targetsTable, indegrees, h.ids, h.targetLists]

/-! ### What is kept -/

theorem modify (h : s.Like t) {f : Cell → Cell} (hf : Cell.Blind f) (id : NodeId) :
    (s.modify id f).Like (t.modify id f) := by
  refine ⟨by rw [ids_modify, ids_modify, h.ids], fun i => ?_, h.targets, h.nextId⟩
  rw [cell?_modify, cell?_modify]
  split
  · exact hf.congr_map (h.cell? i)
  · exact h.cell? i

/-- A cell is put in the place of another in both stores. -/
theorem assign (h : s.Like t) {c d : Cell} (hcd : c.forget = d.forget) (id : NodeId) :
    (s.modify id fun _ => c).Like (t.modify id fun _ => d) := by
  refine ⟨by rw [ids_modify, ids_modify, h.ids], fun i => ?_, h.targets, h.nextId⟩
  rw [cell?_modify, cell?_modify]
  split
  · rcases h.cell_cases i with ⟨hs, ht⟩ | ⟨c', d', hs, ht, -⟩
    · rw [hs, ht]
      rfl
    · rw [hs, ht]
      exact congrArg some hcd
  · exact h.cell? i

theorem map (h : s.Like t) {f : Cell → Cell} (hf : Cell.Blind f) : (s.map f).Like (t.map f) := by
  refine ⟨by rw [ids_map, ids_map, h.ids], fun i => ?_, h.targets, h.nextId⟩
  rw [cell?_map, cell?_map]
  exact hf.congr_map (h.cell? i)

theorem modifyTargets (h : s.Like t) (id : NodeId) (f : List NodeId → List NodeId) :
    (s.modifyTargets id f).Like (t.modifyTargets id f) := by
  refine ⟨h.ids, h.cell?, fun i => ?_, h.nextId⟩
  rw [targets_modifyTargets, targets_modifyTargets, h.ids, h.targets]

theorem insert (h : s.Like t) {c d : Cell} (hcd : c.forget = d.forget) : (s.insert c).Like (t.insert d) := by
  have hid : c.id = d.id := congrArg Record.id (Cell.record_of_forget hcd)
  refine ⟨?_, fun i => ?_, fun i => ?_, ?_⟩
  · show (s.cells.insert c.id c.clearInputs).ids = (t.cells.insert d.id d.clearInputs).ids
    have hids : s.cells.ids = t.cells.ids := h.ids
    rw [IdMap.ids_insert, IdMap.ids_insert, hid, hids]
  · rw [cell?_insert, cell?_insert, hid]
    split
    · exact congrArg some (Cell.blind_clearInputs.congr hcd)
    · exact h.cell? i
  · rw [targets_insert, targets_insert, hid, h.targets]
  · show max s.nextId (c.id.val.toNat + 1) = max t.nextId (d.id.val.toNat + 1)
    rw [h.nextId, hid]

theorem detach (h : s.Like t) (id : NodeId) : (s.detach id).Like (t.detach id) := by
  refine ⟨by rw [ids_detach, ids_detach, h.ids], fun i => ?_, fun i => ?_, ?_⟩
  · rw [cell?_detach, cell?_detach, h.targets]
    split
    · rfl
    · exact ((Cell.blind_removeInput id).iterate _).congr_map (h.cell? i)
  · rw [targets_detach, targets_detach, h.inputs, h.targets]
  · rw [nextId_detach, nextId_detach, h.nextId]

/-- An id is unknown to both stores, or the cells that are taken out differ at most in what was compiled. -/
theorem remove?_cases (h : s.Like t) (id : NodeId) : (s.remove? id = none ∧ t.remove? id = none) ∨
    ∃ c d s' t', s.remove? id = some (c, s') ∧ t.remove? id = some (d, t') ∧ c.forget = d.forget ∧ s'.Like t' := by
  rcases h.cell_cases id with ⟨hs, ht⟩ | ⟨c, d, hs, ht, hcd⟩
  · exact Or.inl ⟨remove?_eq_none (Store.cell?_eq_none.1 hs), remove?_eq_none (Store.cell?_eq_none.1 ht)⟩
  · exact Or.inr ⟨_, _, _, _, remove?_eq hs, remove?_eq ht, Cell.blind_clearInputs.congr hcd, h.detach id⟩

theorem remove?_eq_none (h : s.Like t) {id : NodeId} (hs : s.remove? id = none) : t.remove? id = none := by
  rcases h.remove?_cases id with ⟨-, ht⟩ | ⟨c, -, s', -, hc, -⟩
  · exact ht
  · nomatch hc.symm.trans hs

theorem exists_remove? (h : s.Like t) {id : NodeId} {c : Cell} {s' : Store} (hs : s.remove? id = some (c, s')) :
    ∃ d t', t.remove? id = some (d, t') ∧ s'.Like t' := by
  rcases h.remove?_cases id with ⟨hnone, -⟩ | ⟨c', d, s'', t', hc, ht, -, hlike⟩
  · nomatch hnone.symm.trans hs
  · obtain ⟨-, rfl⟩ := Prod.mk.inj (Option.some.inj (hc.symm.trans hs))
    exact ⟨d, t', ht, hlike⟩

theorem link (h : s.Like t) (a b : NodeId) : (s.link a b).Like (t.link a b) :=
  (h.modifyTargets a _).modify (fun _ => rfl) b

theorem unlink (h : s.Like t) (a b : NodeId) : (s.unlink a b).Like (t.unlink a b) := by
  unfold Store.unlink
  rw [h.hasEdge]
  split
  · exact (h.modifyTargets a _).modify (Cell.blind_removeInput a) b
  · exact h

end Like

/-- Changing what was compiled of a cell leaves a store like itself. -/
theorem like_modify {s : Store} {id : NodeId} {f : Cell → Cell}
    (hf : ∀ c, s.cell? id = some c → (f c).forget = c.forget) : (s.modify id f).Like s := by
  refine ⟨ids_modify id _, fun i => ?_, fun _ => rfl, rfl⟩
  rw [cell?_modify]
  split
  · rename_i hi
    rcases hc : s.cell? i with _ | c
    · rfl
    · exact congrArg some (hf c (hi ▸ hc))
  · rfl

theorem like_map_compile (s : Store) : (s.map Cell.compile).Like s := by
  refine ⟨ids_map _, fun i => ?_, fun _ => rfl, rfl⟩
  rw [cell?_map, Option.map_map]
  exact congrArg (fun f => (s.cell? i).map f) (funext Cell.forget_compile)

/-- Evaluating a store changes nothing but what was compiled of its cells. -/
theorem like_evaluate (s : Store) (root : NodeId) : (s.evaluate root).2.Like s := by
  refine evaluate_keeps (P := fun t => t.Like s) root (fun t id c hlike hc => ?_) (.refl s)
  refine (like_modify fun d hd => ?_).trans hlike
  obtain rfl := Option.some.inj (hc.symm.trans hd)
  exact c.forget_compile

end CellGraph.Store
