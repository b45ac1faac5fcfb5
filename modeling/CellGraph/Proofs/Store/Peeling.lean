import CellGraph.Store.Peeling
import Mathlib.Algebra.Ring.Nat
import Mathlib.Data.Fintype.EquivFin
import Mathlib.Data.List.Perm.Subperm
import Mathlib.Logic.Relation

/-!
# What peeling takes

`peel` lists nodes such that a node comes after all that have an arc to it, and goes on as long as it can (`Peeled`).
The table of waits may count more than the arcs between members: what it counts beyond them holds a node back for good.
The key fact is `peeled_peel`, for a table that counts at least the arcs.  If it counts nothing else, the members that
are taken are those that no cycle leads to (`Peeled.mem_iff`).
-/

namespace CellGraph

open Relation (TransGen ReflTransGen)

instance : Finite NodeId := by
  refine Finite.of_injective (fun id : NodeId => id.val.toFin) ?_
  rintro ⟨_⟩ ⟨_⟩ h
  exact congrArg NodeId.mk (UInt32.toFin_inj.1 h)

/-- The number of arcs from some nodes to a node. -/
def arcCount (arcs : NodeId → List NodeId) (nodes : List NodeId) (id : NodeId) : Nat :=
  (nodes.map fun n => (arcs n).count id).sum

/-- An order in which a graph is peeled as far as possible: a node that is not held comes after all that have an arc to
it, and what is left out is held or has an arc from something left out. -/
structure Peeled (members : List NodeId) (arcs : NodeId → List NodeId) (held : NodeId → Nat)
    (order : List NodeId) : Prop where
  nodup : order.Nodup
  subset : ∀ id ∈ order, id ∈ members
  free : ∀ id ∈ order, held id = 0
  ordered : ∀ earlier id later, order = earlier ++ id :: later → ∀ n ∈ members, id ∈ arcs n → n ∈ earlier
  stuck : ∀ id ∈ members, id ∉ order → held id ≠ 0 ∨ ∃ n ∈ members, n ∉ order ∧ id ∈ arcs n

variable {members : List NodeId} {arcs : NodeId → List NodeId} {held : NodeId → Nat}

/-! ### Counting arcs -/

theorem arcCount_eq_zero {nodes : List NodeId} {id : NodeId} :
    arcCount arcs nodes id = 0 ↔ ∀ n ∈ nodes, id ∉ arcs n := by
  simp [arcCount, List.sum_eq_zero_iff_forall_eq_nat, List.count_eq_zero]

private theorem filter_not_mem_perm {id : NodeId} {taken : List NodeId} (hnodup : members.Nodup) (hid : id ∈ members)
    (hnew : id ∉ taken) :
    (members.filter (· ∉ taken)).Perm (id :: members.filter (· ∉ id :: taken)) := by
  have hmem : id ∈ members.filter (· ∉ taken) := by simp [hid, hnew]
  refine (List.perm_cons_erase hmem).trans (List.Perm.cons _ (List.Perm.of_eq ?_))
  rw [List.Nodup.erase_eq_filter (hnodup.filter _), List.filter_filter]
  apply List.filter_congr
  intro n _
  by_cases hn : n = id <;> simp [hn]

/-- Taking a node leaves the arcs from the others. -/
private theorem arcCount_take {id : NodeId} {taken : List NodeId} (hnodup : members.Nodup) (hid : id ∈ members)
    (hnew : id ∉ taken) (target : NodeId) :
    arcCount arcs (members.filter (· ∉ taken)) target =
      (arcs id).count target + arcCount arcs (members.filter (· ∉ id :: taken)) target := by
  have hperm := (filter_not_mem_perm hnodup hid hnew).map fun n => (arcs n).count target
  rw [arcCount, hperm.sum_nat, List.map_cons, List.sum_cons]
  rfl

/-! ### The invariant -/

namespace Peeling

/-- What holds while a graph is peeled.  Of the arcs that leave the node taken last, those in `rest` are not let go of
yet. -/
private structure Sound (members : List NodeId) (arcs : NodeId → List NodeId) (held : NodeId → Nat) (p : Peeling)
    (rest : List NodeId) : Prop where
  nodup : (p.free ++ p.taken).Nodup
  subset : ∀ id ∈ p.free ++ p.taken, id ∈ members
  waiting : ∀ id, p.waiting[id]? =
    if id ∈ members then some (held id + arcCount arcs (members.filter (· ∉ p.taken)) id + rest.count id) else none
  zero : ∀ id, p.waiting[id]? = some 0 ↔ id ∈ p.free ++ p.taken
  ordered : ∀ later id earlier, p.taken = later ++ id :: earlier →
    held id = 0 ∧ ∀ n ∈ members, id ∈ arcs n → n ∈ earlier

private theorem Sound.wait {p : Peeling} {rest : List NodeId} (h : p.Sound members arcs held rest) {id : NodeId}
    {n : Nat} (hn : p.waiting[id]? = some n) :
    id ∈ members ∧ n = held id + arcCount arcs (members.filter (· ∉ p.taken)) id + rest.count id := by
  rw [h.waiting] at hn
  split at hn
  · rename_i hid
    exact ⟨hid, (Option.some.inj hn).symm⟩
  · simp at hn

/-- Letting go of an arc to a node that waits for `n + 1`. -/
private theorem Sound.waiting_insert {p : Peeling} {rest : List NodeId} {id : NodeId} {n : Nat}
    (h : p.Sound members arcs held (id :: rest)) (hn : p.waiting[id]? = some (n + 1)) (i : NodeId) :
    (p.waiting.insert id n)[i]? =
      if i ∈ members then some (held i + arcCount arcs (members.filter (· ∉ p.taken)) i + rest.count i)
      else none := by
  obtain ⟨hid, hcount⟩ := h.wait hn
  rw [Std.HashMap.getElem?_insert]
  by_cases hi : id = i
  · subst hi
    rw [List.count_cons_self] at hcount
    rw [if_pos (by simp), if_pos hid]
    congr 1
    omega
  · rw [if_neg (by simpa using hi), h.waiting, List.count_cons_of_ne hi]

private theorem Sound.release {p : Peeling} {rest : List NodeId} {id : NodeId}
    (h : p.Sound members arcs held (id :: rest)) : (p.release id).Sound members arcs held rest := by
  unfold Peeling.release
  split
  · rename_i hone
    have hinsert := h.waiting_insert hone
    have hnew : id ∉ p.free ++ p.taken := by
      rw [← h.zero, hone]
      simp
    refine ⟨List.nodup_cons.2 ⟨hnew, h.nodup⟩, ?_, hinsert, ?_, h.ordered⟩
    · intro i hi
      rcases List.mem_cons.1 hi with rfl | hi
      · exact (h.wait hone).1
      · exact h.subset i hi
    · intro i
      rw [Std.HashMap.getElem?_insert, List.cons_append, List.mem_cons, ← h.zero]
      by_cases hi : id = i
      · simp [hi]
      · rw [if_neg (by simpa using hi)]
        simp [Ne.symm hi]
  · rename_i n hmore
    have hinsert := h.waiting_insert hmore
    refine ⟨h.nodup, h.subset, hinsert, ?_, h.ordered⟩
    intro i
    rw [← h.zero, Std.HashMap.getElem?_insert]
    by_cases hi : id = i
    · subst hi
      simp [hmore]
    · rw [if_neg (by simpa using hi)]
  · rename_i hone hmore
    -- a member with an arc left to let go of waits for at least one
    have hid : id ∉ members := by
      intro hid
      have hwait := h.waiting id
      rw [if_pos hid, List.count_cons_self] at hwait
      rcases hrest : held id + arcCount arcs (members.filter (· ∉ p.taken)) id + rest.count id with _ | n
      · exact hone (by rw [hwait]; congr 1; omega)
      · exact hmore n (by rw [hwait]; congr 1; omega)
    refine ⟨h.nodup, h.subset, ?_, h.zero, h.ordered⟩
    intro i
    rw [h.waiting]
    by_cases hi : i ∈ members
    · have hne : id ≠ i := fun he => hid (he ▸ hi)
      rw [List.count_cons_of_ne hne]
    · rw [if_neg hi, if_neg hi]

private theorem Sound.release_foldl {rest : List NodeId} {p : Peeling} (h : p.Sound members arcs held rest) :
    (rest.foldl Peeling.release p).Sound members arcs held [] := by
  induction rest generalizing p with
  | nil => exact h
  | cons id rest ih => exact ih h.release

private theorem taken_foldl_release (rest : List NodeId) (p : Peeling) :
    (rest.foldl Peeling.release p).taken = p.taken := by
  induction rest generalizing p with
  | nil => rfl
  | cons id rest ih =>
    rw [List.foldl_cons, ih]
    unfold Peeling.release
    split <;> rfl

private theorem Sound.take {p : Peeling} {id : NodeId} {free : List NodeId} (hm : members.Nodup)
    (h : p.Sound members arcs held []) (hfree : p.free = id :: free) :
    (p.take arcs id free).Sound members arcs held [] := by
  have hnodup := h.nodup
  rw [hfree, List.cons_append, List.nodup_cons, List.mem_append, not_or] at hnodup
  have hid : id ∈ members := h.subset id (by simp [hfree])
  have hmid : (free ++ id :: p.taken).Perm (p.free ++ p.taken) := by
    rw [hfree]
    exact List.perm_middle
  have hwait := h.waiting id
  rw [(h.zero id).2 (by simp [hfree]), if_pos hid, List.count_nil] at hwait
  have hzero := Option.some.inj hwait
  apply Sound.release_foldl
  refine ⟨hmid.nodup_iff.2 h.nodup, fun i hi => h.subset i (hmid.mem_iff.1 hi), ?_, ?_, ?_⟩
  · intro i
    rw [h.waiting, arcCount_take hm hid hnodup.1.2, List.count_nil, Nat.add_comm (List.count i (arcs id)),
      Nat.add_zero, Nat.add_assoc]
  · intro i
    rw [h.zero, hmid.mem_iff]
  · intro later i earlier htaken
    rcases later with _ | ⟨j, later⟩
    · -- the node that is taken waits for nothing, so all that have an arc to it are taken
      obtain ⟨rfl, rfl⟩ := List.cons.inj htaken
      refine ⟨by omega, ?_⟩
      intro n hn harc
      have hcount : arcCount arcs (members.filter (· ∉ p.taken)) id = 0 := by omega
      have hnone := arcCount_eq_zero.1 hcount n
      by_contra htaken
      exact hnone (by simp [hn, htaken]) harc
    · exact h.ordered later i earlier (List.cons.inj htaken).2

private theorem Sound.length_taken {p : Peeling} (h : p.Sound members arcs held []) :
    p.free.length + p.taken.length ≤ members.length := by
  rw [← List.length_append]
  exact (List.subperm_of_subset h.nodup h.subset).length_le

/-- A run with a step for every member ends without free nodes. -/
private theorem Sound.run (hm : members.Nodup) (n : Nat) {p : Peeling} (h : p.Sound members arcs held [])
    (hn : members.length ≤ n + p.taken.length) :
    (p.run arcs n).Sound members arcs held [] ∧ (p.run arcs n).free = [] := by
  induction n generalizing p with
  | zero =>
    refine ⟨h, List.eq_nil_of_length_eq_zero ?_⟩
    have hle := h.length_taken
    show p.free.length = 0
    omega
  | succ n ih =>
    unfold Peeling.run
    split
    · rename_i hfree
      exact ⟨h, hfree⟩
    · rename_i id free hfree
      apply ih (h.take hm hfree)
      rw [Peeling.take, taken_foldl_release, List.length_cons]
      omega

private theorem sound_start {waiting : Std.HashMap NodeId Nat} (hm : members.Nodup)
    (hw : ∀ id, waiting[id]? = if id ∈ members then some (held id + arcCount arcs members id) else none) :
    (start members waiting).Sound members arcs held [] := by
  have hfree : ∀ id, id ∈ (start members waiting).free ↔ waiting[id]? = some 0 := by
    intro id
    simp only [start, List.mem_reverse, List.mem_filter, beq_iff_eq, and_iff_right_iff_imp]
    intro hzero
    by_contra hid
    rw [hw, if_neg hid] at hzero
    simp at hzero
  refine ⟨?_, ?_, ?_, ?_, ?_⟩
  · simpa [start] using hm.filter _
  · intro id hid
    simp only [start, List.append_nil, List.mem_reverse, List.mem_filter] at hid
    exact hid.1
  · intro id
    simpa [start] using hw id
  · intro id
    rw [List.mem_append, hfree]
    simp [start]
  · intro later id earlier htaken
    simp [start] at htaken

end Peeling

/-- Peeling goes as far as possible if the table of waits counts the arcs from members. -/
theorem peeled_peel {waiting : Std.HashMap NodeId Nat} (hm : members.Nodup)
    (hw : ∀ id, waiting[id]? = if id ∈ members then some (held id + arcCount arcs members id) else none) :
    Peeled members arcs held (peel members waiting arcs) := by
  obtain ⟨h, hfree⟩ := (Peeling.sound_start hm hw).run hm members.length (by omega)
  unfold peel
  generalize (Peeling.start members waiting).run arcs members.length = p at h hfree
  have hnodup := h.nodup
  have hsubset := h.subset
  have hzero := h.zero
  rw [hfree, List.nil_append] at hnodup hsubset
  refine ⟨List.nodup_reverse.2 hnodup, fun id hid => hsubset id (List.mem_reverse.1 hid), ?_, ?_, ?_⟩
  · intro id hid
    obtain ⟨later, earlier, hsplit⟩ := List.append_of_mem (List.mem_reverse.1 hid)
    exact (h.ordered later id earlier hsplit).1
  · intro earlier id later hsplit n hn harc
    have htaken : p.taken = later.reverse ++ id :: earlier.reverse := by
      rw [← List.reverse_reverse p.taken, hsplit]
      simp
    exact List.mem_reverse.1 ((h.ordered _ id _ htaken).2 n hn harc)
  · intro id hid hnew
    rw [List.mem_reverse] at hnew
    have hwait := h.waiting id
    rw [if_pos hid, List.count_nil, Nat.add_zero] at hwait
    by_contra hstuck
    rw [not_or, Decidable.not_not] at hstuck
    have hcount : arcCount arcs (members.filter (· ∉ p.taken)) id = 0 := by
      rw [arcCount_eq_zero]
      intro n hn harc
      rw [List.mem_filter, decide_eq_true_eq] at hn
      exact hstuck.2 ⟨n, hn.1, by simpa using hn.2, harc⟩
    rw [hstuck.1, hcount] at hwait
    have hmem := (hzero id).1 hwait
    rw [hfree, List.nil_append] at hmem
    exact hnew hmem

/-- A run with a step for every member goes on until no node is free. -/
theorem free_run_eq_nil {waiting : Std.HashMap NodeId Nat} (hm : members.Nodup)
    (hw : ∀ id, waiting[id]? = if id ∈ members then some (held id + arcCount arcs members id) else none) :
    ((Peeling.start members waiting).run arcs members.length).free = [] :=
  ((Peeling.sound_start hm hw).run hm members.length (by omega)).2

/-! ### Which nodes are taken -/

/-- There are finitely many ids, so paths end if there is no cycle. -/
theorem wellFounded_of_acyclic {r : NodeId → NodeId → Prop} (hacyclic : ∀ c, ¬ TransGen r c c) :
    WellFounded fun a b => TransGen r b a := by
  have htrans : IsTrans NodeId fun a b => TransGen r b a := ⟨fun _ _ _ hab hbc => hbc.trans hab⟩
  have hirrefl : Std.Irrefl fun a b => TransGen r b a := ⟨fun a ha => hacyclic a ha⟩
  exact Finite.wellFounded_of_trans_of_irrefl _

namespace Peeled

variable {order : List NodeId}

/-- A node comes after those that have an arc to it. -/
theorem idxOf_lt (h : Peeled members arcs held order) {n id : NodeId} (hn : n ∈ members) (hid : id ∈ order)
    (harc : id ∈ arcs n) : n ∈ order ∧ order.idxOf n < order.idxOf id := by
  obtain ⟨earlier, later, hsplit⟩ := List.append_of_mem hid
  have hmem := h.ordered earlier id later hsplit n hn harc
  have hnew : id ∉ earlier := by
    intro hearlier
    have hnodup := h.nodup
    rw [hsplit, List.nodup_append] at hnodup
    exact hnodup.2.2 id hearlier id (List.mem_cons_self ..) rfl
  refine ⟨by rw [hsplit]; exact List.mem_append_left _ hmem, ?_⟩
  rw [hsplit, List.idxOf_append_of_mem hmem, List.idxOf_append_of_notMem hnew]
  have hlt := List.idxOf_lt_length_of_mem hmem
  omega

/-- Only members have arcs. -/
def Within (members : List NodeId) (arcs : NodeId → List NodeId) : Prop := ∀ a b, b ∈ arcs a → a ∈ members

private theorem idxOf_lt_of_transGen (h : Peeled members arcs held order) (hin : Within members arcs) {a b : NodeId}
    (hab : TransGen (fun a b => b ∈ arcs a) a b) (hb : b ∈ order) : a ∈ order ∧ order.idxOf a < order.idxOf b := by
  induction hab with
  | single hstep => exact h.idxOf_lt (hin _ _ hstep) hb hstep
  | tail _ hstep ih =>
    obtain ⟨hmid, hlt⟩ := h.idxOf_lt (hin _ _ hstep) hb hstep
    obtain ⟨ha, hlt'⟩ := ih hmid
    exact ⟨ha, hlt'.trans hlt⟩

/-- If nothing is held, the nodes that are taken are the members to which no cycle leads. -/
theorem mem_iff (h : Peeled members arcs held order) (hin : Within members arcs) (hheld : ∀ id, held id = 0)
    {id : NodeId} : id ∈ order ↔
      id ∈ members ∧ ∀ c, TransGen (fun a b => b ∈ arcs a) c c → ¬ ReflTransGen (fun a b => b ∈ arcs a) c id := by
  constructor
  · intro hid
    refine ⟨h.subset id hid, ?_⟩
    intro c hcycle hpath
    have hc : c ∈ order := by
      rcases Relation.reflTransGen_iff_eq_or_transGen.1 hpath with rfl | hpath
      · exact hid
      · exact (h.idxOf_lt_of_transGen hin hpath hid).1
    exact absurd (h.idxOf_lt_of_transGen hin hcycle hc).2 (Nat.lt_irrefl _)
  · rintro ⟨hid, hcycle⟩
    -- there are finitely many ids, so those that lead to `id` are well-founded if none is on a cycle
    let lt : NodeId → NodeId → Prop := fun a b =>
      TransGen (fun a b => b ∈ arcs a) a b ∧ ReflTransGen (fun a b => b ∈ arcs a) b id
    have htrans : IsTrans NodeId lt := ⟨fun _ _ _ hab hbc => ⟨hab.1.trans hbc.1, hbc.2⟩⟩
    have hirrefl : Std.Irrefl lt := ⟨fun a ha => hcycle a ha.1 ha.2⟩
    have hwf : WellFounded lt := Finite.wellFounded_of_trans_of_irrefl lt
    have hall : ∀ a, a ∈ members → ReflTransGen (fun a b => b ∈ arcs a) a id → a ∈ order := by
      intro a
      induction a using hwf.induction with
      | h a ih =>
        intro ha hpath
        by_contra hnew
        rcases h.stuck a ha hnew with hne | ⟨n, hn, hnew', harc⟩
        · exact hne (hheld a)
        · exact hnew' (ih n ⟨TransGen.single harc, hpath⟩ hn (hpath.head harc))
    exact hall id hid ReflTransGen.refl

/-- If nothing is held, all members are taken exactly if there is no cycle. -/
theorem length_eq_iff (h : Peeled members arcs held order) (hin : Within members arcs) (hheld : ∀ id, held id = 0)
    (hm : members.Nodup) :
    order.length = members.length ↔ ∀ c, ¬ TransGen (fun a b => b ∈ arcs a) c c := by
  have hsub : order.Subperm members := List.subperm_of_subset h.nodup h.subset
  constructor
  · intro hlen c hcycle
    have hperm := hsub.perm_of_length_le (Nat.le_of_eq hlen.symm)
    obtain ⟨b, hstep, -⟩ := TransGen.head'_iff.1 hcycle
    have hc := hperm.mem_iff.2 (hin c b hstep)
    exact ((h.mem_iff hin hheld).1 hc).2 c hcycle ReflTransGen.refl
  · intro hacyclic
    have hall : members.Subperm order := by
      refine List.subperm_of_subset hm ?_
      intro id hid
      exact (h.mem_iff hin hheld).2 ⟨hid, fun c hcycle => absurd hcycle (hacyclic c)⟩
    exact Nat.le_antisymm hsub.length_le hall.length_le

end Peeled

end CellGraph
