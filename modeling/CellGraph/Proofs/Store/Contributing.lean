import CellGraph.Proofs.Store.Order

/-!
# The members that matter for a root

`Store.idle` peels a store against its edges (`peeled_idle`): what is taken feeds nothing but what was taken before, and
what is left is the root, feeds an id that is no member or feeds something that is left.  If there is no cycle and all
targets are members, the members that are left are those with a path to the root (`mem_contributing_iff`).
-/

namespace CellGraph.Store

open Relation (TransGen ReflTransGen)

/-- How many edges of a member lead to no member, and one more for the root.  These are never let go of. -/
def outsideCount (s : Store) (root id : NodeId) : Nat :=
  (s.targets id).countP (fun t => decide (t ∉ s.ids)) + if id == root then 1 else 0

/-! ### Tables -/

private theorem count_foldl_sources (key u v : NodeId) (ts : List NodeId)
    (table : Std.HashMap NodeId (List NodeId)) :
    ((ts.foldl (fun table t => table.insert t (key :: table.getD t [])) table).getD v []).count u =
      (table.getD v []).count u + if u == key then ts.count v else 0 := by
  induction ts generalizing table with
  | nil => simp
  | cons t ts ih =>
    rw [List.foldl_cons, ih, Std.HashMap.getD_insert, List.count_cons]
    by_cases ht : t = v
    · subst ht
      by_cases hu : u = key
      · subst hu
        simp
        omega
      · have hne : (key == u) = false := by simpa using Ne.symm hu
        simp [List.count_cons, hne, hu]
    · simp [ht]

private theorem count_foldl_entries (u v : NodeId) (es : List (NodeId × List NodeId))
    (table : Std.HashMap NodeId (List NodeId)) :
    ((es.foldl (fun table e => e.2.foldl (fun table t => table.insert t (e.1 :: table.getD t [])) table)
      table).getD v []).count u =
        (table.getD v []).count u + (es.map fun e => if u == e.1 then e.2.count v else 0).sum := by
  induction es generalizing table with
  | nil => simp
  | cons e es ih =>
    rw [List.foldl_cons, ih, count_foldl_sources, List.map_cons, List.sum_cons, Nat.add_assoc]

theorem count_sourcesTable (s : Store) (u v : NodeId) : (s.sourcesTable.getD v []).count u = (s.targets u).count v := by
  rw [sourcesTable, count_foldl_entries, sum_entries s fun id ts => if u == id then ts.count v else 0]
  by_cases hu : u ∈ s.ids
  · have hsum := sum_map_single s.nodup_ids hu (fun _ => 0) ((s.targets u).count v)
    have hcongr : (s.ids.map fun id => if u == id then (s.targets id).count v else 0) =
        s.ids.map fun id => if u == id then 0 + (s.targets u).count v else 0 := by
      apply List.map_congr_left
      intro id _
      by_cases hid : u = id <;> simp [hid]
    rw [hcongr, hsum]
    simp
  · have hnone : s.targets u = [] := by
      rw [List.eq_nil_iff_forall_not_mem]
      exact fun t ht => hu (mem_ids_of_mem_targets ht)
    have hzero : (s.ids.map fun id => if u == id then (s.targets id).count v else 0).sum = 0 := by
      rw [List.sum_eq_zero_iff_forall_eq_nat]
      intro n hn
      obtain ⟨id, hid, rfl⟩ := List.mem_map.1 hn
      have hne : u ≠ id := fun h => hu (h ▸ hid)
      rw [if_neg (by simpa using hne)]
    rw [hzero, hnone]
    simp

/-- The table of sources has the members that feed an id. -/
theorem mem_getD_sourcesTable {s : Store} {u v : NodeId} : u ∈ s.sourcesTable.getD v [] ↔ v ∈ s.targets u := by
  rw [← List.count_pos_iff, count_sourcesTable, List.count_pos_iff]

private theorem sum_count {ids : List NodeId} (hnodup : ids.Nodup) (ts : List NodeId) :
    (ids.map fun v => ts.count v).sum = ts.countP (fun t => decide (t ∈ ids)) := by
  induction ts with
  | nil => simp
  | cons t ts ih =>
    simp only [List.count_cons, List.countP_cons]
    by_cases ht : t ∈ ids
    · have hsum := sum_map_single hnodup ht (fun v => ts.count v) 1
      have hcongr : (ids.map fun v => ts.count v + if t == v then 1 else 0) =
          ids.map fun v => if t == v then ts.count v + 1 else ts.count v := by
        apply List.map_congr_left
        intro v _
        split <;> rfl
      rw [hcongr, hsum, ih]
      simp [ht]
    · have hcongr : (ids.map fun v => ts.count v + if t == v then 1 else 0) = ids.map fun v => ts.count v := by
        apply List.map_congr_left
        intro v hv
        have hne : t ≠ v := fun h => ht (h ▸ hv)
        rw [if_neg (by simpa using hne), Nat.add_zero]
      rw [hcongr, ih]
      simp [ht]

/-- The table of waits counts the edges of each member, and one more for the root. -/
theorem getElem?_outdegrees (s : Store) (root id : NodeId) :
    (s.outdegrees root)[id]? = if id ∈ s.ids then
      some (s.outsideCount root id + arcCount (fun v => s.sourcesTable.getD v []) s.ids id) else none := by
  have harcs : arcCount (fun v => s.sourcesTable.getD v []) s.ids id =
      (s.targets id).countP (fun t => decide (t ∈ s.ids)) := by
    rw [← sum_count s.nodup_ids]
    unfold arcCount
    congr 1
    apply List.map_congr_left
    intro v _
    exact count_sourcesTable s id v
  have hlen : (s.targets id).length = (s.targets id).countP (fun t => decide (t ∈ s.ids)) +
      (s.targets id).countP (fun t => decide (t ∉ s.ids)) := by
    simpa using List.length_eq_countP_add_countP (fun t => decide (t ∈ s.ids)) (l := s.targets id)
  have hget : (s.targetLists.get? id).map (fun ts => ts.length) =
      if id ∈ s.ids then some (s.targets id).length else none := by
    unfold targets
    split
    · rename_i hid
      rw [ids, ← s.ids_targetLists] at hid
      obtain ⟨ts, hts⟩ := IdMap.mem_ids_iff.1 hid
      simp [hts]
    · rename_i hid
      rw [ids, ← s.ids_targetLists] at hid
      rw [IdMap.get?_eq_none.2 hid]
      rfl
  have hadd : (s.outdegrees root)[id]? =
      ((s.targetLists.get? id).map (fun ts => ts.length)).map (· + if id == root then 1 else 0) := by
    rw [outdegrees, getElem?_foldl_insert s.targetLists (fun id ts => ts.length + if id == root then 1 else 0),
      Option.map_map]
    rfl
  rw [hadd, hget, harcs, outsideCount]
  by_cases hid : id ∈ s.ids
  · rw [if_pos hid, if_pos hid, Option.map_some, hlen]
    congr 1
    omega
  · rw [if_neg hid, if_neg hid]
    rfl

/-- Finding the members that do not matter peels a store against its edges. -/
theorem peeled_idle (s : Store) (root : NodeId) :
    Peeled s.ids (fun id => s.sourcesTable.getD id []) (s.outsideCount root) (s.idle root) :=
  peeled_peel s.nodup_ids (getElem?_outdegrees s root)

/-! ### Paths to the root -/

theorem mem_contributing {s : Store} {root id : NodeId} :
    id ∈ s.contributing root ↔ id ∈ s.ids ∧ id ∉ s.idle root := by
  simp [contributing]

/-- If all targets are members and no cycle is there, a member matters exactly if a path leads from it to the root. -/
theorem mem_contributing_iff {s : Store} {root id : NodeId} (hroot : root ∈ s.ids)
    (hmem : ∀ a b, b ∈ s.targets a → b ∈ s.ids) (hacyclic : ∀ c, ¬ TransGen (fun a b => b ∈ s.targets a) c c) :
    id ∈ s.contributing root ↔ ReflTransGen (fun a b => b ∈ s.targets a) id root := by
  have hpeeled := s.peeled_idle root
  have houtside : ∀ id, s.outsideCount root id = if id = root then 1 else 0 := by
    intro id
    have hnone : (s.targets id).countP (fun t => decide (t ∉ s.ids)) = 0 := by
      rw [List.countP_eq_zero]
      intro t ht
      simpa using hmem id t ht
    rw [outsideCount, hnone, Nat.zero_add]
    simp
  rw [mem_contributing]
  constructor
  · rintro ⟨hid, hleft⟩
    have hwf := wellFounded_of_acyclic hacyclic
    induction id using hwf.induction with
    | h id ih =>
      rcases hpeeled.stuck id hid hleft with hheld | ⟨n, hn, hleft', hedge⟩
      · have hroot : id = root := by
          by_contra hne
          exact hheld (by rw [houtside, if_neg hne])
        exact hroot ▸ ReflTransGen.refl
      · rw [mem_getD_sourcesTable] at hedge
        exact (ih n (TransGen.single hedge) hn hleft').head hedge
  · intro hpath
    induction hpath using ReflTransGen.head_induction_on with
    | refl =>
      refine ⟨hroot, fun hidle => ?_⟩
      have hfree := hpeeled.free root hidle
      rw [houtside, if_pos rfl] at hfree
      omega
    | head hstep _ ih =>
      rename_i a b
      refine ⟨mem_ids_of_mem_targets hstep, fun hidle => ?_⟩
      exact ih.2 (hpeeled.idxOf_lt ih.1 hidle (mem_getD_sourcesTable.2 hstep)).1

end CellGraph.Store
