import CellGraph.Proofs.Store.Contributing
import CellGraph.Proofs.Store.WellFormed
import CellGraph.Store.Evaluate

/-!
# The schedule of a store

The schedule of a well-formed store is a duplicate-free list of the members from which a path leads to the root
(`mem_schedule_iff`).  Each comes after all of its inputs (`inputs_before_schedule`), and the root comes last
(`getLast?_schedule`).
-/

namespace CellGraph.Store.WellFormed

open Relation (ReflTransGen TransGen)

variable {s : Store} {root : NodeId}

theorem peeled_sort (s : Store) : Peeled s.ids s.targets (fun _ => 0) s.sort := by
  show Peeled s.ids (s.targetsWith none) (fun _ => 0) (s.sortWith none)
  exact peeled_sortWith (by simp)

theorem mem_ids_of_mem_sort {id : NodeId} (h : id ∈ s.sort) : id ∈ s.ids := (peeled_sort s).subset id h

theorem nodup_sort (s : Store) : s.sort.Nodup := (peeled_sort s).nodup

theorem nodup_schedule (s : Store) (root : NodeId) : (s.schedule root).Nodup := (nodup_sort s).filter _

/-- If no cycle is there, the order has all members. -/
theorem mem_sort_of_acyclic (hacyclic : ∀ id, ¬ TransGen (fun a b => b ∈ s.targets a) id id) {id : NodeId} :
    id ∈ s.sort ↔ id ∈ s.ids := by
  rw [(peeled_sort s).mem_iff (fun _ _ => mem_ids_of_mem_targets) (fun _ => rfl)]
  exact ⟨fun hid => hid.1, fun hid => ⟨hid, fun c hcycle => absurd hcycle (hacyclic c)⟩⟩

theorem mem_sort_iff (h : s.WellFormed) {id : NodeId} : id ∈ s.sort ↔ id ∈ s.ids := mem_sort_of_acyclic h.acyclic

/-- The schedule has the members from which a path leads to the root. -/
theorem mem_schedule_iff (h : s.WellFormed) (hroot : root ∈ s.ids) {id : NodeId} :
    id ∈ s.schedule root ↔ ReflTransGen (fun a b => b ∈ s.targets a) id root := by
  have hmem : ∀ a b, b ∈ s.targets a → b ∈ s.ids := fun a b hab => (h.mem_ids_of_edge hab).2
  rw [← mem_contributing_iff hroot hmem h.acyclic]
  simp only [schedule, List.mem_filter, List.contains_iff_mem, mem_sort_iff h, mem_contributing]
  exact ⟨fun hid => hid.2, fun hid => ⟨hid.1, hid⟩⟩

/-- The schedule is the order of all members without those from which no path leads to the root. -/
theorem schedule_eq_filter (h : s.WellFormed) (hroot : root ∈ s.ids) {live : NodeId → Bool}
    (hlive : ∀ id ∈ s.ids, live id = true ↔ ReflTransGen (fun a b => b ∈ s.targets a) id root) :
    s.schedule root = s.sort.filter live := by
  apply List.filter_congr
  intro id hid
  rw [Bool.eq_iff_iff, hlive id (h.mem_sort_iff.1 hid), ← h.mem_schedule_iff hroot, schedule, List.mem_filter,
    and_iff_right hid]

/-- The inputs of a member of the schedule come before it. -/
theorem inputs_before_schedule (h : s.WellFormed) (hroot : root ∈ s.ids) {earlier later : List NodeId} {id : NodeId}
    (hsplit : s.schedule root = earlier ++ id :: later) : ∀ i ∈ s.inputs id, i ∈ earlier := by
  intro i hi
  have hedge : id ∈ s.targets i := (h.mirror i id).2 hi
  have hid : id ∈ s.schedule root := hsplit ▸ List.mem_append_right _ (List.mem_cons_self ..)
  have hin : i ∈ s.schedule root := (h.mem_schedule_iff hroot).2 (((h.mem_schedule_iff hroot).1 hid).head hedge)
  obtain ⟨before, after, hsort, rfl, hafter⟩ := List.filter_eq_append_iff.1 hsplit
  obtain ⟨skipped, after, rfl, hskipped, -, -⟩ := List.filter_eq_cons_iff.1 hafter
  -- in the whole order the input comes before, and what the filter skips is not the input
  have hbefore : i ∈ before ++ skipped := by
    refine (peeled_sort s).ordered (before ++ skipped) id after ?_ i (h.mem_ids_of_edge hedge).1 hedge
    rw [hsort, List.append_assoc]
  have hcontributing := (List.mem_filter.1 hin).2
  rcases List.mem_append.1 hbefore with hbefore | hskip
  · exact List.mem_filter.2 ⟨hbefore, hcontributing⟩
  · exact absurd hcontributing (hskipped i hskip)

/-- The root comes last. -/
theorem getLast?_schedule (h : s.WellFormed) (hroot : root ∈ s.ids) : (s.schedule root).getLast? = some root := by
  have hmem : root ∈ s.schedule root := (h.mem_schedule_iff hroot).2 ReflTransGen.refl
  obtain ⟨earlier, last, hsplit⟩ := (List.eq_nil_or_concat (s.schedule root)).resolve_left (List.ne_nil_of_mem hmem)
  rw [List.concat_eq_append] at hsplit
  rw [hsplit, List.getLast?_append, List.getLast?_singleton, Option.some_or]
  have hlast : last ∈ s.schedule root := hsplit ▸ List.mem_append_right _ (List.mem_singleton_self _)
  rcases ((h.mem_schedule_iff hroot).1 hlast).cases_head with rfl | ⟨next, hedge, hpath⟩
  · rfl
  -- otherwise the last one has a target in the schedule, which would have to come later
  · have hnext := (h.mem_schedule_iff hroot).2 hpath
    rw [hsplit, List.mem_append, List.mem_singleton] at hnext
    rcases hnext with hnext | rfl
    · obtain ⟨before, after, rfl⟩ := List.append_of_mem hnext
      rw [List.append_assoc, List.cons_append] at hsplit
      have hbefore := h.inputs_before_schedule hroot hsplit last ((h.mirror last next).1 hedge)
      have hnodup := nodup_schedule s root
      rw [hsplit, List.nodup_append] at hnodup
      exact absurd rfl (hnodup.2.2 last hbefore last (by simp))
    · exact absurd (TransGen.single hedge) (h.acyclic _)

end CellGraph.Store.WellFormed
