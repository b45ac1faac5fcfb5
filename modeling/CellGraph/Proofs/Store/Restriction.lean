import CellGraph.Proofs.Store.Order

/-!
# Peeling a part of a graph

A part of a graph is closed if no arc leads into it from outside.  Nodes outside of a closed part lie between those of
the part while the graph is peeled, but they free none of them, so the order of the part alone is the order of the whole
without the nodes outside (`peel_filter`).  In particular the order of a store is not changed for the other members when
members that feed none of them are taken out (`Store.sort_of_restricts`).
-/

namespace CellGraph

namespace Peeling

variable {arcs arcs' : NodeId → List NodeId} {live : NodeId → Bool} {p q : Peeling}

/-- The second peeling is the first one without the nodes outside a part. -/
private structure Shadows (live : NodeId → Bool) (p q : Peeling) : Prop where
  waiting : ∀ id, live id = true → q.waiting[id]? = p.waiting[id]?
  free : q.free = p.free.filter live
  taken : q.taken = p.taken.filter live

/-- Letting go of an arc that leads out of the part is not seen in it. -/
private theorem Shadows.release_outside (h : Shadows live p q) {id : NodeId} (hid : ¬ live id = true) :
    Shadows live (p.release id) q := by
  have hinsert : ∀ n i, live i = true → q.waiting[i]? = (p.waiting.insert id n)[i]? := by
    intro n i hi
    have hne : id ≠ i := fun he => hid (he ▸ hi)
    rw [Std.HashMap.getElem?_insert, if_neg (by simpa using hne), h.waiting i hi]
  unfold release
  split
  · refine ⟨hinsert 0, ?_, h.taken⟩
    rw [List.filter_cons_of_neg hid]
    exact h.free
  · rename_i n _
    exact ⟨hinsert (n + 1), h.free, h.taken⟩
  · exact h

/-- Letting go of an arc that leads into the part. -/
private theorem Shadows.release_inside (h : Shadows live p q) {id : NodeId} (hid : live id = true) :
    Shadows live (p.release id) (q.release id) := by
  have hinsert : ∀ n i, live i = true → (q.waiting.insert id n)[i]? = (p.waiting.insert id n)[i]? := by
    intro n i hi
    rw [Std.HashMap.getElem?_insert, Std.HashMap.getElem?_insert, h.waiting i hi]
  unfold release
  rw [h.waiting id hid]
  split
  · refine ⟨hinsert 0, ?_, h.taken⟩
    rw [List.filter_cons_of_pos hid, h.free]
  · rename_i n _
    exact ⟨hinsert (n + 1), h.free, h.taken⟩
  · exact h

private theorem Shadows.release_foldl (ids : List NodeId) (h : Shadows live p q) :
    Shadows live (ids.foldl release p) ((ids.filter live).foldl release q) := by
  induction ids generalizing p q with
  | nil => exact h
  | cons id ids ih =>
    by_cases hid : live id = true
    · rw [List.filter_cons_of_pos hid]
      exact ih (h.release_inside hid)
    · rw [List.filter_cons_of_neg hid]
      exact ih (h.release_outside hid)

private theorem run_of_free_nil (n : Nat) (hfree : p.free = []) : p.run arcs n = p := by
  cases n with
  | zero => rfl
  | succ n => rw [Peeling.run, hfree]

private theorem run_of_free_cons (n : Nat) {id : NodeId} {free : List NodeId} (hfree : p.free = id :: free) :
    p.run arcs (n + 1) = (p.take arcs id free).run arcs n := by rw [Peeling.run, hfree]

/-- A run on the whole is a run on the part in which the nodes outside take no step. -/
private theorem Shadows.run (hclosed : ∀ a b, b ∈ arcs a → live b = true → live a = true)
    (harcs : ∀ a, live a = true → arcs' a = (arcs a).filter live) (n : Nat) (h : Shadows live p q) :
    ∃ m, Shadows live (p.run arcs n) (q.run arcs' m) := by
  induction n generalizing p q with
  | zero => exact ⟨0, h⟩
  | succ n ih =>
    have hq := h.free
    rcases hfree : p.free with _ | ⟨id, free⟩
    · rw [run_of_free_nil _ hfree]
      exact ⟨0, h⟩
    · rw [run_of_free_cons n hfree]
      rw [hfree] at hq
      by_cases hid : live id = true
      · rw [List.filter_cons_of_pos hid] at hq
        have htake : Shadows live (p.take arcs id free) (q.take arcs' id (free.filter live)) := by
          rw [take, take, harcs id hid]
          refine Shadows.release_foldl _ ⟨h.waiting, rfl, ?_⟩
          rw [List.filter_cons_of_pos hid, h.taken]
        obtain ⟨m, hm⟩ := ih htake
        refine ⟨m + 1, ?_⟩
        rwa [run_of_free_cons m hq]
      · rw [List.filter_cons_of_neg hid] at hq
        -- nothing outside has an arc into the part
        have hnone : (arcs id).filter live = [] := by
          rw [List.filter_eq_nil_iff]
          exact fun b hb hlive => hid (hclosed id b hb hlive)
        have hshadow : Shadows live ⟨p.waiting, free, id :: p.taken⟩ q := by
          refine ⟨h.waiting, hq, ?_⟩
          rw [List.filter_cons_of_neg hid, h.taken]
        have htake := hshadow.release_foldl (arcs id)
        rw [hnone] at htake
        exact ih htake

/-- Runs that end without free nodes end in the same way, however many steps were left to them. -/
private theorem run_eq_of_ended {m n : Nat} (hm : (p.run arcs m).free = []) (hn : (p.run arcs n).free = []) :
    p.run arcs m = p.run arcs n := by
  induction m generalizing p n with
  | zero => exact (run_of_free_nil n hm).symm
  | succ m ih =>
    rcases hfree : p.free with _ | ⟨id, free⟩
    · rw [run_of_free_nil _ hfree, run_of_free_nil n hfree]
    · cases n with
      | zero => exact absurd (hn.symm.trans hfree) (List.cons_ne_nil id free).symm
      | succ n =>
        rw [run_of_free_cons _ hfree] at hm hn ⊢
        rw [run_of_free_cons _ hfree]
        exact ih hm hn

/-- Peeling a closed part of a graph takes its nodes in the order in which they are taken from the whole. -/
theorem peel_filter {members : List NodeId} {waiting waiting' : Std.HashMap NodeId Nat}
    (hclosed : ∀ a b, b ∈ arcs a → live b = true → live a = true)
    (harcs : ∀ a, live a = true → arcs' a = (arcs a).filter live)
    (hwaiting : ∀ id, live id = true → waiting'[id]? = waiting[id]?)
    (hend : ((start members waiting).run arcs members.length).free = [])
    (hend' : ((start (members.filter live) waiting').run arcs' (members.filter live).length).free = []) :
    peel (members.filter live) waiting' arcs' = (peel members waiting arcs).filter live := by
  have hstart : Shadows live (start members waiting) (start (members.filter live) waiting') := by
    refine ⟨hwaiting, ?_, rfl⟩
    show ((members.filter live).filter fun id => waiting'[id]? == some 0).reverse =
      (members.filter fun id => waiting[id]? == some 0).reverse.filter live
    rw [List.filter_reverse, List.filter_filter, List.filter_filter]
    congr 1
    apply List.filter_congr
    intro id _
    by_cases hid : live id = true
    · rw [hid, hwaiting id hid, Bool.and_true, Bool.true_and]
    · rw [Bool.not_eq_true] at hid
      rw [hid, Bool.and_false, Bool.false_and]
  obtain ⟨m, hm⟩ := hstart.run hclosed harcs members.length
  have hfree := hm.free
  rw [hend, List.filter_nil] at hfree
  rw [peel, peel, ← run_eq_of_ended hfree hend', hm.taken, List.filter_reverse]

/-- Only what a table of waits says matters for the order. -/
theorem peel_congr {members : List NodeId} {waiting waiting' : Std.HashMap NodeId Nat}
    (hwaiting : ∀ id : NodeId, waiting'[id]? = waiting[id]?)
    (hend : ((start members waiting).run arcs members.length).free = [])
    (hend' : ((start members waiting').run arcs members.length).free = []) :
    peel members waiting' arcs = peel members waiting arcs := by
  have hall (ids : List NodeId) : ids.filter (fun _ => true) = ids := List.filter_true ids
  have hpart : peel (members.filter fun _ => true) waiting' arcs = (peel members waiting arcs).filter fun _ => true :=
    peel_filter (fun _ _ _ _ => rfl) (fun a _ => (hall (arcs a)).symm) (fun id _ => hwaiting id) hend (by rwa [hall])
  rwa [hall, hall] at hpart

end Peeling

namespace Store

/-- A store that is a part of another one: members that feed none of the others are left out, with their edges. -/
structure Restricts (s t : Store) (live : NodeId → Bool) : Prop where
  ids : t.ids = s.ids.filter live
  targets : ∀ id, live id = true → t.targets id = (s.targets id).filter live
  closed : ∀ a b, b ∈ s.targets a → live b = true → live a = true

variable {s t : Store} {live : NodeId → Bool}

/-- As many edges lead to a member from the part as from the whole. -/
private theorem Restricts.arcCount_eq (h : s.Restricts t live) {id : NodeId} (hid : live id = true) :
    arcCount t.targets t.ids id = arcCount s.targets s.ids id := by
  rw [h.ids]
  unfold arcCount
  induction s.ids with
  | nil => rfl
  | cons n ids ih =>
    by_cases hn : live n = true
    · have hcount : (t.targets n).count id = (s.targets n).count id := by rw [h.targets n hn, List.count_filter hid]
      rw [List.filter_cons_of_pos hn, List.map_cons, List.map_cons, List.sum_cons, List.sum_cons, ih, hcount]
    · have hcount : (s.targets n).count id = 0 := List.count_eq_zero.2 fun hmem => hn (h.closed n id hmem hid)
      rw [List.filter_cons_of_neg hn, List.map_cons, List.sum_cons, ih, hcount, Nat.zero_add]

/-- The order of a part is the order of the whole without the members that are left out. -/
theorem sort_of_restricts (h : s.Restricts t live) : t.sort = s.sort.filter live := by
  have hwaits : ∀ (s : Store) (id : NodeId), (s.indegrees none)[id]? =
      if id ∈ s.ids then some (arcCount s.targets s.ids id) else none := by
    intro s id
    rw [getElem?_indegrees (by simp)]
    rfl
  have hpeel : ∀ s : Store, s.sort = peel s.ids (s.indegrees none) s.targets := fun s => sortWith_eq_peel s none
  have hend := t.free_run_sort
  rw [h.ids] at hend
  rw [hpeel, hpeel, h.ids]
  refine Peeling.peel_filter h.closed h.targets ?_ s.free_run_sort hend
  intro id hid
  have hmem : id ∈ t.ids ↔ id ∈ s.ids := by rw [h.ids, List.mem_filter, and_iff_left hid]
  simp only [hwaits, h.arcCount_eq hid, hmem]

end Store

end CellGraph
