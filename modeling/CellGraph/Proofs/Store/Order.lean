import CellGraph.Proofs.Store.Peeling
import CellGraph.Store.Order

/-!
# Orders of a store

The tables from which a store is peeled say what the store says (`getD_targetsTable`, `mem_getD_sourcesTable`,
`getElem?_indegrees`, `getElem?_outdegrees`).  So `Store.sortWith` peels a store along its edges (`peeled_sortWith`) and
`Store.idle` against them (`peeled_idle`).
-/

namespace CellGraph.Store

open Relation (TransGen ReflTransGen)

/-- The targets of an id, with an extra edge. -/
def targetsWith (s : Store) (extra : Option (NodeId × NodeId)) (id : NodeId) : List NodeId :=
  match extra with
  | some (source, target) => if source == id then s.targets id ++ [target] else s.targets id
  | none => s.targets id

/-! ### Targets -/

theorem nodup_ids (s : Store) : s.ids.Nodup := s.cells.nodup

theorem mem_ids_of_mem_targets {s : Store} {a b : NodeId} (h : b ∈ s.targets a) : a ∈ s.ids := by
  unfold targets at h
  rcases hget : s.targetLists.get? a with _ | ts
  · simp [hget] at h
  · have hmem := IdMap.mem_ids_of_get? hget
    rwa [s.ids_targetLists] at hmem

theorem targets_of_mem_entries {s : Store} {id : NodeId} {ts : List NodeId} (h : (id, ts) ∈ s.targetLists.entries) :
    s.targets id = ts := by
  rw [targets, IdMap.get?_of_mem_entries h, Option.getD_some]

/-- A sum over the entries of the targets is a sum over the ids. -/
theorem sum_entries (s : Store) (f : NodeId → List NodeId → Nat) :
    (s.targetLists.entries.map fun e => f e.1 e.2).sum = (s.ids.map fun id => f id (s.targets id)).sum := by
  have hids : s.ids = s.targetLists.entries.map (·.1) := s.ids_targetLists.symm
  rw [hids, List.map_map]
  congr 1
  apply List.map_congr_left
  rintro ⟨id, ts⟩ he
  show f id ts = f id (s.targets id)
  rw [targets_of_mem_entries he]

/-! ### Tables -/

/-- A table that is filled from a map has what the map has. -/
theorem getElem?_foldl_insert {α β : Type} (m : IdMap α) (f : NodeId → α → β) (id : NodeId) :
    (m.entries.foldl (fun (table : Std.HashMap NodeId β) e => table.insert e.1 (f e.1 e.2)) ∅)[id]? =
      (m.get? id).map (f id) := by
  suffices h : ∀ (es : List (NodeId × α)) (table : Std.HashMap NodeId β), (es.map (·.1)).Nodup →
      (es.foldl (fun (table : Std.HashMap NodeId β) e => table.insert e.1 (f e.1 e.2)) table)[id]? =
        (((es.find? (·.1 == id)).map (·.2)).map (f id)).or table[id]? by
    rw [h m.entries ∅ m.nodup]
    simp [IdMap.get?]
  intro es
  induction es with
  | nil => simp
  | cons e es ih =>
    intro table hnodup
    rw [List.map_cons, List.nodup_cons] at hnodup
    rw [List.foldl_cons, ih _ hnodup.2]
    by_cases he : e.1 = id
    · subst he
      have hnone : es.find? (·.1 == e.1) = none := by
        rw [List.find?_eq_none]
        intro x hx hxe
        exact hnodup.1 (List.mem_map.2 ⟨x, hx, by simpa using hxe⟩)
      simp [hnone]
    · rw [List.find?_cons_of_neg (by simpa using he), Std.HashMap.getElem?_insert, if_neg (by simpa using he)]

theorem getD_targetsTable (s : Store) (id : NodeId) : s.targetsTable.getD id [] = s.targets id := by
  rw [Std.HashMap.getD_eq_getD_getElem?, targetsTable, getElem?_foldl_insert s.targetLists (fun _ ts => ts)]
  simp [targets]

private theorem getElem?_addWait (waiting : Std.HashMap NodeId Nat) (t id : NodeId) :
    (addWait waiting t)[id]? = (waiting[id]?).map (· + [t].count id) := by
  unfold addWait
  by_cases ht : t = id
  · subst ht
    split <;> simp_all
  · have hcount : [t].count id = 0 := by simpa [List.count_eq_zero] using Ne.symm ht
    rw [hcount]
    split
    · rw [Std.HashMap.getElem?_insert, if_neg (by simpa using ht)]
      simp
    · simp

private theorem getElem?_foldl_addWait (ts : List NodeId) (waiting : Std.HashMap NodeId Nat) (id : NodeId) :
    (ts.foldl addWait waiting)[id]? = (waiting[id]?).map (· + ts.count id) := by
  induction ts generalizing waiting with
  | nil => simp
  | cons t ts ih =>
    rw [List.foldl_cons, ih, getElem?_addWait, Option.map_map]
    congr 1
    funext n
    rw [Function.comp, List.count_cons, List.count_cons, List.count_nil]
    omega

private theorem getElem?_foldl_entries (es : List (NodeId × List NodeId)) (waiting : Std.HashMap NodeId Nat)
    (id : NodeId) :
    (es.foldl (fun waiting e => e.2.foldl addWait waiting) waiting)[id]? =
      (waiting[id]?).map (· + (es.map fun e => e.2.count id).sum) := by
  induction es generalizing waiting with
  | nil => simp
  | cons e es ih =>
    rw [List.foldl_cons, ih, getElem?_foldl_addWait, Option.map_map]
    congr 1
    funext n
    rw [Function.comp, List.map_cons, List.sum_cons]
    omega

private theorem getElem?_foldl_zero (ids : List NodeId) (waiting : Std.HashMap NodeId Nat) (id : NodeId) :
    (ids.foldl (fun waiting id => waiting.insert id 0) waiting)[id]? = if id ∈ ids then some 0 else waiting[id]? := by
  induction ids generalizing waiting with
  | nil => simp
  | cons i ids ih =>
    rw [List.foldl_cons, ih, Std.HashMap.getElem?_insert]
    by_cases hid : id ∈ ids
    · simp [hid]
    · by_cases hi : i = id
      · simp [hi]
      · simp [hid, hi, Ne.symm hi]

/-- One term of a sum is larger by `k`. -/
theorem sum_map_single {ids : List NodeId} (hnodup : ids.Nodup) {a : NodeId} (ha : a ∈ ids)
    (f : NodeId → Nat) (k : Nat) :
    (ids.map fun n => if a == n then f n + k else f n).sum = (ids.map f).sum + k := by
  induction ids with
  | nil => simp at ha
  | cons i ids ih =>
    rw [List.nodup_cons] at hnodup
    rw [List.map_cons, List.sum_cons, List.map_cons, List.sum_cons]
    by_cases hi : a = i
    · subst hi
      have hrest : (ids.map fun n => if a == n then f n + k else f n) = ids.map f := by
        apply List.map_congr_left
        intro n hn
        have hne : a ≠ n := fun h => hnodup.1 (h ▸ hn)
        rw [if_neg (by simpa using hne)]
      rw [hrest, if_pos (by simp)]
      omega
    · rw [if_neg (by simpa using hi), ih hnodup.2 ((List.mem_cons.1 ha).resolve_left hi)]
      omega

private theorem arcCount_targetsWith {s : Store} {source : NodeId} (hsource : source ∈ s.ids) (target id : NodeId) :
    arcCount (s.targetsWith (some (source, target))) s.ids id = arcCount s.targets s.ids id + [target].count id := by
  unfold arcCount
  rw [← sum_map_single s.nodup_ids hsource]
  congr 1
  apply List.map_congr_left
  intro n _
  rw [targetsWith]
  split
  · rw [List.count_append]
  · rfl

/-- The table of waits counts the edges to each member, the extra one too if it comes from a member. -/
theorem getElem?_indegrees {s : Store} {extra : Option (NodeId × NodeId)} (hextra : ∀ e ∈ extra, e.1 ∈ s.ids)
    (id : NodeId) :
    (s.indegrees extra)[id]? = if id ∈ s.ids then some (arcCount (s.targetsWith extra) s.ids id) else none := by
  have hbase : (s.targetLists.entries.foldl (fun waiting e => e.2.foldl addWait waiting)
      (s.ids.foldl (fun waiting id => waiting.insert id 0) ∅))[id]? =
        if id ∈ s.ids then some (arcCount s.targets s.ids id) else none := by
    rw [getElem?_foldl_entries, getElem?_foldl_zero, sum_entries s fun _ ts => ts.count id]
    split <;> simp [arcCount]
  unfold indegrees
  rcases extra with _ | ⟨source, target⟩
  · exact hbase
  · show (addWait _ target)[id]? = _
    rw [getElem?_addWait, hbase, arcCount_targetsWith (hextra _ rfl)]
    split <;> rfl

theorem sortWith_eq_peel (s : Store) (extra : Option (NodeId × NodeId)) :
    s.sortWith extra = peel s.ids (s.indegrees extra) (s.targetsWith extra) := by
  have harcs : s.targetsWith extra = fun id =>
      match extra with
      | some (source, target) =>
        if source == id then s.targetsTable.getD id [] ++ [target] else s.targetsTable.getD id []
      | none => s.targetsTable.getD id [] := by
    funext id
    rw [getD_targetsTable]
    rfl
  rw [harcs]
  rfl

/-- Sorting goes on until no member is free. -/
theorem free_run_sortWith {s : Store} {extra : Option (NodeId × NodeId)} (hextra : ∀ e ∈ extra, e.1 ∈ s.ids) :
    ((Peeling.start s.ids (s.indegrees extra)).run (s.targetsWith extra) s.ids.length).free = [] := by
  have hwaiting (id : NodeId) : (s.indegrees extra)[id]? =
      if id ∈ s.ids then some (0 + arcCount (s.targetsWith extra) s.ids id) else none := by
    rw [getElem?_indegrees hextra, Nat.zero_add]
  exact free_run_eq_nil s.nodup_ids hwaiting

theorem free_run_sort (s : Store) :
    ((Peeling.start s.ids (s.indegrees none)).run s.targets s.ids.length).free = [] := by
  have hextra : ∀ e ∈ (none : Option (NodeId × NodeId)), e.1 ∈ s.ids := nofun
  exact free_run_sortWith hextra

/-- Sorting peels a store along its edges. -/
theorem peeled_sortWith {s : Store} {extra : Option (NodeId × NodeId)} (hextra : ∀ e ∈ extra, e.1 ∈ s.ids) :
    Peeled s.ids (s.targetsWith extra) (fun _ => 0) (s.sortWith extra) := by
  rw [sortWith_eq_peel]
  apply peeled_peel s.nodup_ids
  intro id
  rw [getElem?_indegrees hextra, Nat.zero_add]

theorem within_targetsWith {s : Store} {extra : Option (NodeId × NodeId)} (hextra : ∀ e ∈ extra, e.1 ∈ s.ids) :
    Peeled.Within s.ids (s.targetsWith extra) := by
  intro a b hab
  unfold targetsWith at hab
  split at hab
  · rename_i source target
    split at hab
    · rename_i ha
      exact (by simpa using ha : source = a) ▸ hextra _ rfl
    · exact mem_ids_of_mem_targets hab
  · exact mem_ids_of_mem_targets hab

/-- An order with an extra edge is complete exactly if no cycle is there with that edge. -/
theorem isComplete_sortWith_iff {s : Store} {extra : Option (NodeId × NodeId)} (hextra : ∀ e ∈ extra, e.1 ∈ s.ids) :
    s.isComplete (s.sortWith extra) = true ↔ ∀ c, ¬ TransGen (fun a b => b ∈ s.targetsWith extra a) c c := by
  rw [← (peeled_sortWith hextra).length_eq_iff (within_targetsWith hextra) (fun _ => rfl) s.nodup_ids]
  simp [isComplete, size, ids]

end CellGraph.Store
