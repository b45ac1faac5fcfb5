import CellGraph.Proofs.Graph.Loops
import CellGraph.Proofs.Store.Sorting
import Mathlib.Data.Finset.Card
import Mathlib.Order.Bounds.Basic

/-!
# Pruning a store

A member other than the root does not matter if none of its targets does, in particular if it has none.  The members
that `Store.contributing` leaves out are the least set with this property (`isLeast_idle`).  Another way to find them
is to take members without targets out one by one, whereby others lose their last target, until the list of members to
be taken out is empty.  Whatever the order in which members are found, and also if one is found several times, this ends
with the members that matter (`Pruning.ends`).
-/

namespace CellGraph.Store

open Relation (ReflTransGen TransGen)

variable {s : Store} {root : NodeId}

/-! ### The least set of members that do not matter -/

/-- Whether a set has every member other than the root of which it has all targets. -/
def PruneClosed (s : Store) (root : NodeId) (P : Set NodeId) : Prop :=
  ∀ id ∈ s.ids, id ≠ root → (∀ t ∈ s.targets id, t ∈ P) → id ∈ P

theorem outsideCount_eq_zero {id : NodeId} :
    s.outsideCount root id = 0 ↔ (∀ t ∈ s.targets id, t ∈ s.ids) ∧ id ≠ root := by
  rw [outsideCount, Nat.add_eq_zero_iff, List.countP_eq_zero]
  refine and_congr ?_ ?_
  · simp
  · by_cases hid : id = root <;> simp [hid]

theorem pruneClosed_idle (s : Store) (root : NodeId) : s.PruneClosed root {id | id ∈ s.idle root} := by
  intro id hid hroot htargets
  have hpeeled := s.peeled_idle root
  by_contra hleft
  rcases hpeeled.stuck id hid hleft with hheld | ⟨n, hn, hnew, harc⟩
  · exact hheld (outsideCount_eq_zero.2 ⟨fun t ht => hpeeled.subset t (htargets t ht), hroot⟩)
  · exact hnew (htargets n (mem_getD_sourcesTable.1 harc))

/-- The members that do not matter are in every closed set.  Each comes after its targets in the order of peeling, so
this goes by induction on the place in that order. -/
theorem mem_of_mem_idle {P : Set NodeId} (hP : s.PruneClosed root P) {id : NodeId} (hid : id ∈ s.idle root) :
    id ∈ P := by
  have hpeeled := s.peeled_idle root
  induction hplace : (s.idle root).idxOf id using Nat.strong_induction_on generalizing id with
  | h place ih =>
    obtain ⟨hmembers, hroot⟩ := outsideCount_eq_zero.1 (hpeeled.free id hid)
    refine hP id (hpeeled.subset id hid) hroot fun t ht => ?_
    obtain ⟨htaken, hbefore⟩ := hpeeled.idxOf_lt (hmembers t ht) hid (mem_getD_sourcesTable.2 ht)
    exact ih _ (hplace ▸ hbefore) htaken rfl

theorem isLeast_idle (s : Store) (root : NodeId) : IsLeast {P | s.PruneClosed root P} {id | id ∈ s.idle root} :=
  ⟨s.pruneClosed_idle root, fun _ hP _ hid => mem_of_mem_idle hP hid⟩

/-! ### Taking members out one by one -/

/-- The sources of the edges to an id, once for each edge, as they are met when target lists are gone through. -/
def sourcesAlong (entries : List (NodeId × List NodeId)) (id : NodeId) : List NodeId :=
  entries.flatMap fun e => (e.2.filter (· == id)).map fun _ => e.1

/-- In whatever order the target lists of a store are gone through, all sources are met. -/
theorem mem_sourcesAlong {entries : List (NodeId × List NodeId)} (h : entries.Perm s.targetLists.entries)
    {a b : NodeId} : a ∈ sourcesAlong entries b ↔ b ∈ s.targets a := by
  simp only [sourcesAlong, List.mem_flatMap, List.mem_map, List.mem_filter, beq_iff_eq, h.mem_iff]
  constructor
  · rintro ⟨⟨id, ts⟩, he, t, ⟨ht, rfl⟩, rfl⟩
    rwa [targets_of_mem_entries he]
  · intro hb
    have ha : a ∈ s.targetLists.ids := s.ids_targetLists ▸ mem_ids_of_mem_targets hb
    obtain ⟨⟨id, ts⟩, he, rfl⟩ := List.mem_map.1 ha
    exact ⟨⟨id, ts⟩, he, b, ⟨targets_of_mem_entries he ▸ hb, rfl⟩, rfl⟩

/-- A store that is pruned in part. -/
structure Pruning where
  /-- What is left of the targets of each id. -/
  left : NodeId → List NodeId
  /-- The members that are not taken out. -/
  alive : Finset NodeId
  /-- The members to be taken out, the one that was found last first. -/
  work : List NodeId

namespace Pruning

/-- Nothing is taken out yet, and the members without targets are found. -/
def start (s : Store) (root : NodeId) : Pruning :=
  ⟨s.targets, s.ids.toFinset, (s.ids.filter fun id => id != root && (s.targets id).isEmpty).reverse⟩

/-- A source loses an id from its targets.  If it has no other ones, it is found. -/
def strip (root id : NodeId) (p : Pruning) (source : NodeId) : Pruning :=
  let rest := (p.left source).filter (· != id)
  ⟨Function.update p.left source rest, p.alive,
    if rest = [] ∧ source ≠ root ∧ source ∈ p.alive then source :: p.work else p.work⟩

/-- One turn of pruning: the member that was found last is taken out, unless that was done before, and its sources lose
it from their targets. -/
def next? (root : NodeId) (sources : NodeId → List NodeId) (p : Pruning) : Option Pruning :=
  match p.work with
  | [] => none
  | id :: work =>
    if id ∈ p.alive then some ((sources id).foldl (strip root id) ⟨p.left, p.alive.erase id, work⟩)
    else some ⟨p.left, p.alive, work⟩

variable {p : Pruning}

theorem alive_foldl_strip (id : NodeId) (ids : List NodeId) (p : Pruning) :
    (ids.foldl (strip root id) p).alive = p.alive := by
  induction ids generalizing p with
  | nil => rfl
  | cons source ids ih => exact ih _

private theorem left_strip (id source : NodeId) (p : Pruning) (i : NodeId) :
    (strip root id p source).left i = if i = source then (p.left i).filter (· != id) else p.left i := by
  show Function.update p.left source ((p.left source).filter (· != id)) i = _
  rw [Function.update_apply]
  by_cases hi : i = source
  · rw [if_pos hi, if_pos hi, hi]
  · rw [if_neg hi, if_neg hi]

theorem left_foldl_strip (id : NodeId) (ids : List NodeId) (p : Pruning) (i : NodeId) :
    (ids.foldl (strip root id) p).left i = if i ∈ ids then (p.left i).filter (· != id) else p.left i := by
  induction ids generalizing p with
  | nil => simp
  | cons source ids ih =>
    rw [List.foldl_cons, ih, left_strip]
    by_cases hi : i = source
    · subst hi
      simp
    · simp [hi]

private theorem mem_work_strip (id source : NodeId) (p : Pruning) (i : NodeId) :
    i ∈ (strip root id p source).work ↔
      i ∈ p.work ∨ i = source ∧ (p.left i).filter (· != id) = [] ∧ i ≠ root ∧ i ∈ p.alive := by
  rw [strip]
  by_cases hi : i = source
  · subst hi
    split
    · rename_i hfound
      exact iff_of_true (List.mem_cons_self ..) (Or.inr ⟨rfl, hfound⟩)
    · rename_i hfound
      exact ⟨Or.inl, fun h => h.resolve_right fun h => hfound h.2⟩
  · split <;> simp [hi]

/-- The sources that are found are those that lost their last target. -/
theorem mem_work_foldl_strip (id : NodeId) (ids : List NodeId) (p : Pruning) (i : NodeId) :
    i ∈ (ids.foldl (strip root id) p).work ↔
      i ∈ p.work ∨ i ∈ ids ∧ (p.left i).filter (· != id) = [] ∧ i ≠ root ∧ i ∈ p.alive := by
  induction ids generalizing p with
  | nil => simp
  | cons source ids ih =>
    have hleft : ((strip root id p source).left i).filter (· != id) = (p.left i).filter (· != id) := by
      rw [left_strip]
      split
      · rw [List.filter_filter]
        simp
      · rfl
    rw [List.foldl_cons, ih, hleft, mem_work_strip, List.mem_cons, or_assoc, or_and_right]
    rfl

/-! ### The invariant of pruning -/

/-- What holds while a store is pruned: a member loses the targets that are taken out, those to be taken out are the
members other than the root that have lost all of them, and what is taken out is in every closed set. -/
private structure Sound (s : Store) (root : NodeId) (p : Pruning) : Prop where
  subset : ∀ id ∈ p.alive, id ∈ s.ids
  left : ∀ id, p.left id = (s.targets id).filter fun t => decide (t ∈ p.alive ∨ t ∉ s.ids)
  work : ∀ id ∈ p.work, id ∈ s.ids ∧ id ≠ root ∧ p.left id = []
  found : ∀ id ∈ p.alive, id ≠ root → p.left id = [] → id ∈ p.work
  pruned : ∀ P, s.PruneClosed root P → ∀ id ∈ s.ids, id ∉ p.alive → id ∈ P

private theorem sound_start (s : Store) (root : NodeId) : Sound s root (start s root) := by
  have halive : ∀ id, id ∈ (start s root).alive ↔ id ∈ s.ids := fun id => List.mem_toFinset
  have hwork : ∀ id, id ∈ (start s root).work ↔ id ∈ s.ids ∧ id ≠ root ∧ s.targets id = [] := by
    intro id
    simp [start]
  refine ⟨fun id => (halive id).1, fun id => ?_, fun id => (hwork id).1, fun id hid hroot hnone => ?_, ?_⟩
  · simp only [halive, em, decide_true, List.filter_true]
    rfl
  · exact (hwork id).2 ⟨(halive id).1 hid, hroot, hnone⟩
  · exact fun P _ id hid hgone => absurd ((halive id).2 hid) hgone

/-- A member that was taken out before is dropped from the list. -/
private theorem Sound.skip (h : Sound s root p) {id : NodeId} {work : List NodeId} (hp : p.work = id :: work)
    (hgone : id ∉ p.alive) : Sound s root ⟨p.left, p.alive, work⟩ := by
  refine ⟨h.subset, h.left, fun i hi => h.work i (hp ▸ List.mem_cons_of_mem _ hi), fun i hi hroot hnone => ?_, h.pruned⟩
  have hmem := h.found i hi hroot hnone
  rw [hp] at hmem
  exact (List.mem_cons.1 hmem).resolve_left fun he => hgone (he ▸ hi)

/-- A member is taken out. -/
private theorem Sound.take (h : Sound s root p) {sources : NodeId → List NodeId}
    (hsources : ∀ a b, a ∈ sources b ↔ b ∈ s.targets a) {id : NodeId} {work : List NodeId} (hp : p.work = id :: work)
    (hid : id ∈ p.alive) : Sound s root ((sources id).foldl (strip root id) ⟨p.left, p.alive.erase id, work⟩) := by
  obtain ⟨hmem, hroot, hnone⟩ := h.work id (hp ▸ List.mem_cons_self ..)
  set q := (sources id).foldl (strip root id) ⟨p.left, p.alive.erase id, work⟩ with hq
  have halive : q.alive = p.alive.erase id := alive_foldl_strip ..
  -- what is no source of the member does not have it as a target
  have hleft : ∀ i, q.left i = (p.left i).filter (· != id) := by
    intro i
    rw [hq, left_foldl_strip]
    split
    · rfl
    · rename_i hi
      rw [hsources] at hi
      symm
      rw [List.filter_eq_self]
      intro t ht
      rw [h.left] at ht
      have hne : t ≠ id := fun he => hi (he ▸ (List.mem_filter.1 ht).1)
      simpa using hne
  have hwork : ∀ i, i ∈ q.work ↔ i ∈ work ∨ i ∈ sources id ∧ q.left i = [] ∧ i ≠ root ∧ i ∈ p.alive.erase id := by
    intro i
    rw [hleft]
    exact mem_work_foldl_strip id _ _ i
  refine ⟨fun i hi => ?_, fun i => ?_, fun i hi => ?_, fun i hi hne hempty => ?_, fun P hP i hi hgone => ?_⟩
  · rw [halive] at hi
    exact h.subset i (Finset.mem_of_mem_erase hi)
  · rw [hleft, h.left, List.filter_filter, halive]
    apply List.filter_congr
    intro t _
    by_cases ht : t = id
    · simp [ht, hmem]
    · simp [ht]
  · rcases (hwork i).1 hi with hi | ⟨hi, hempty, hne, -⟩
    · obtain ⟨himem, hne, hempty⟩ := h.work i (hp ▸ List.mem_cons_of_mem _ hi)
      rw [hleft, hempty]
      exact ⟨himem, hne, rfl⟩
    · exact ⟨mem_ids_of_mem_targets ((hsources i id).1 hi), hne, hempty⟩
  · rw [halive] at hi
    rw [hwork]
    by_cases hlost : id ∈ s.targets i
    · exact Or.inr ⟨(hsources i id).2 hlost, hempty, hne, hi⟩
    · -- nothing is lost in this turn, so the member was found before
      have hsame : p.left i = [] := by
        rw [← hempty, hleft, List.filter_eq_self.2]
        intro t ht
        rw [h.left] at ht
        have hother : t ≠ id := fun he => hlost (he ▸ (List.mem_filter.1 ht).1)
        simpa using hother
      have hold := h.found i (Finset.mem_of_mem_erase hi) hne hsame
      rw [hp] at hold
      exact Or.inl ((List.mem_cons.1 hold).resolve_left (Finset.ne_of_mem_erase hi))
  · rw [halive, Finset.mem_erase, not_and'] at hgone
    by_cases hi' : i = id
    · subst hi'
      refine hP i hmem hroot fun t ht => ?_
      rw [h.left, List.filter_eq_nil_iff] at hnone
      have htaken := hnone t ht
      rw [decide_eq_true_iff, not_or, Decidable.not_not] at htaken
      exact h.pruned P hP t htaken.2 htaken.1
    · exact h.pruned P hP i hi fun halive => hgone halive hi'

/-- Pruning goes on until the list is empty.  Each turn takes a member out or makes the list shorter. -/
private theorem Sound.ends {sources : NodeId → List NodeId} (hsources : ∀ a b, a ∈ sources b ↔ b ∈ s.targets a)
    (p : Pruning) (h : Sound s root p) : ∃ q, Ends (next? root sources) p q ∧ Sound s root q ∧ q.work = [] := by
  rcases hp : p.work with _ | ⟨id, work⟩
  · exact ⟨p, .here (by rw [next?, hp]), h, hp⟩
  · by_cases hid : id ∈ p.alive
    · have htake := h.take hsources hp hid
      have hless : ((sources id).foldl (strip root id) ⟨p.left, p.alive.erase id, work⟩).alive.card < p.alive.card := by
        rw [alive_foldl_strip]
        exact Finset.card_erase_lt_of_mem hid
      obtain ⟨q, hends, hq⟩ := Sound.ends hsources _ htake
      exact ⟨q, .turn (by rw [next?, hp]; exact if_pos hid) hends, hq⟩
    · obtain ⟨q, hends, hq⟩ := Sound.ends hsources _ (h.skip hp hid)
      exact ⟨q, .turn (by rw [next?, hp]; exact if_neg hid) hends, hq⟩
termination_by (p.alive.card, p.work.length)
decreasing_by
  · exact Prod.Lex.left _ _ hless
  · rw [hp]
    exact Prod.Lex.right _ (Nat.lt_succ_self _)

/-- When the list is empty, the members that were taken out are those that do not matter. -/
private theorem Sound.mem_alive_iff (h : Sound s root p) (hend : p.work = []) (id : NodeId) :
    id ∈ p.alive ↔ id ∈ s.contributing root := by
  have hclosed : s.PruneClosed root {id | id ∈ s.ids ∧ id ∉ p.alive} := by
    intro i hi hroot htargets
    refine ⟨hi, fun halive => ?_⟩
    have hnone : p.left i = [] := by
      rw [h.left, List.filter_eq_nil_iff]
      intro t ht
      obtain ⟨hmem, hgone⟩ := htargets t ht
      rw [decide_eq_true_iff, not_or, Decidable.not_not]
      exact ⟨hgone, hmem⟩
    have hfound := h.found i halive hroot hnone
    rw [hend] at hfound
    exact List.not_mem_nil hfound
  have hleast : IsLeast {P | s.PruneClosed root P} {id | id ∈ s.ids ∧ id ∉ p.alive} :=
    ⟨hclosed, fun P hP i hi => h.pruned P hP i hi.1 hi.2⟩
  have hsame : id ∈ s.ids ∧ id ∉ p.alive ↔ id ∈ s.idle root := Set.ext_iff.1 (hleast.unique (s.isLeast_idle root)) id
  rw [mem_contributing, ← hsame]
  constructor
  · exact fun halive => ⟨h.subset id halive, fun hgone => hgone.2 halive⟩
  · rintro ⟨hmem, hkept⟩
    by_contra hgone
    exact hkept ⟨hmem, hgone⟩

/-- Pruning ends with the members that matter, whatever the order and the repeats in the lists of sources. -/
theorem ends (s : Store) (root : NodeId) {sources : NodeId → List NodeId}
    (hsources : ∀ a b, a ∈ sources b ↔ b ∈ s.targets a) :
    ∃ p, Ends (next? root sources) (start s root) p ∧ ∀ id, id ∈ p.alive ↔ id ∈ s.contributing root := by
  obtain ⟨p, hends, hsound, hend⟩ := Sound.ends hsources _ (sound_start s root)
  exact ⟨p, hends, hsound.mem_alive_iff hend⟩

end Pruning

/-- Pruning ends in whatever order the target lists are gone through, and leaves the members that `Store.contributing`
lists.  These are the members outside the least set that has every member other than the root of which it has all
targets.  If no cycle is there, all targets are members and the root is one, they are the members from which a path leads
to the root. -/
theorem contributing_exact (s : Store) (root : NodeId) :
    (∀ entries, entries.Perm s.targetLists.entries →
      ∃ p, Ends (Pruning.next? root (sourcesAlong entries)) (.start s root) p ∧
        ∀ id, id ∈ p.alive ↔ id ∈ s.contributing root) ∧
    (∃ P, IsLeast {P | s.PruneClosed root P} P ∧ ∀ id, id ∈ s.contributing root ↔ id ∈ s.ids ∧ id ∉ P) ∧
    ((∀ c, ¬ TransGen s.Edge c c) → (∀ a b, b ∈ s.targets a → b ∈ s.ids) → root ∈ s.ids →
      ∀ id, id ∈ s.contributing root ↔ ReflTransGen s.Edge id root) := by
  refine ⟨fun entries hentries => Pruning.ends s root fun a b => mem_sourcesAlong hentries,
    ⟨{id | id ∈ s.idle root}, s.isLeast_idle root, fun id => mem_contributing⟩, fun hacyclic hmem hroot id => ?_⟩
  simp only [cycle_iff] at hacyclic
  rw [mem_contributing_iff hroot hmem hacyclic, path_iff hroot]

end CellGraph.Store
