import CellGraph.Proofs.Store.Mirror

/-!
# Stores without a policy

A store takes every call (`Store.Call`): a cell can come in the place of another one, and an edge can be there twice,
lead back to its source or to an id without a cell.  Whatever the calls are, each cell is under its own id and the number
for the next id is above all ids (`Store.Keyed`).  If no cell takes the place of another one and edges join members, both
sides record each edge the same number of times (`Store.Balanced`), and then no list mentions an id without a cell.  A
removal keeps that although it takes the two sides back in different ways: one input for each outgoing edge, and all
targets at once.
-/

namespace CellGraph.Store

variable {s : Store}

/-- A call on a store. -/
inductive Call where
  | create (name : String)
  | insert (c : Cell)
  | remove (id : NodeId)
  | link (source target : NodeId)
  | unlink (source target : NodeId)
  | clear

/-- The store after a call.  A store that is cleared gives out ids from zero again. -/
def Call.apply : Call → Store → Store
  | .create name, s => (s.create name).2
  | .insert c, s => s.insert c
  | .remove id, s => ((s.remove? id).map (·.2)).getD s
  | .link source target, s => s.link source target
  | .unlink source target, s => s.unlink source target
  | .clear, _ => empty

/-- The store after several calls, the first one first. -/
def applyAll (s : Store) (calls : List Call) : Store := calls.foldl (fun s call => call.apply s) s

/-- Whether a call puts no cell in the place of another one and joins members only. -/
def Call.Proper (s : Store) : Call → Prop
  | .insert c => c.id ∉ s.ids
  | .link source target => source ∈ s.ids ∧ target ∈ s.ids
  | _ => True

/-- Whether each of several calls is proper for the store that it comes to. -/
def AllProper (s : Store) : List Call → Prop
  | [] => True
  | call :: calls => call.Proper s ∧ (call.apply s).AllProper calls

private theorem apply_remove (id : NodeId) :
    (Call.remove id).apply s = s ∨ (Call.remove id).apply s = s.detach id := by
  rw [Call.apply]
  by_cases hid : id ∈ s.ids
  · right
    obtain ⟨c, hc⟩ := mem_ids_iff.1 hid
    rw [remove?_eq hc]
    rfl
  · left
    rw [remove?_eq_none hid]
    rfl

private theorem apply_create (name : String) :
    (Call.create name).apply s = s ∨
      ∃ id, s.freshId? = some id ∧ (Call.create name).apply s = s.insert (.bare id name) := by
  rw [Call.apply, create]
  rcases s.freshId? with _ | id
  · exact Or.inl rfl
  · exact Or.inr ⟨id, rfl, rfl⟩

/-! ### Cells under their ids -/

/-- Each cell is under its own id, and the number for the next id is above all ids. -/
structure Keyed (s : Store) : Prop where
  own_id : ∀ id c, s.cell? id = some c → c.id = id
  below_nextId : ∀ id ∈ s.ids, id.val.toNat < s.nextId

namespace Keyed

theorem empty : Store.empty.Keyed where
  own_id _ _ hc := absurd (mem_ids_iff.2 ⟨_, hc⟩) List.not_mem_nil
  below_nextId _ hid := absurd hid List.not_mem_nil

/-- A change that puts no cell in. -/
theorem of_cells (h : s.Keyed) {t : Store} (hcell : ∀ i c, t.cell? i = some c → ∃ d, s.cell? i = some d ∧ c.id = d.id)
    (hnext : t.nextId = s.nextId) : t.Keyed where
  own_id i c hc := by
    obtain ⟨d, hd, hcd⟩ := hcell i c hc
    exact hcd.trans (h.own_id i d hd)
  below_nextId i hi := by
    obtain ⟨c, hc⟩ := mem_ids_iff.1 hi
    obtain ⟨d, hd, -⟩ := hcell i c hc
    rw [hnext]
    exact h.below_nextId i (mem_ids_iff.2 ⟨d, hd⟩)

theorem insert (h : s.Keyed) (c : Cell) : (s.insert c).Keyed :=
  ⟨fun i => own_id_insert (h.own_id i) c, below_nextId_insert h.below_nextId c⟩

/-- Every call keeps cells under their ids. -/
theorem call (h : s.Keyed) (call : Call) : (call.apply s).Keyed := by
  cases call with
  | create name =>
    rcases apply_create (s := s) name with heq | ⟨id, -, heq⟩
    · rwa [heq]
    · rw [heq]
      exact h.insert _
  | insert c => exact h.insert c
  | remove id =>
    rcases apply_remove (s := s) id with heq | heq
    · rwa [heq]
    · rw [heq]
      exact h.of_cells (fun _ _ => exists_of_cell?_detach) (nextId_detach id)
  | link source target => exact h.of_cells (fun _ _ => exists_of_cell?_link) rfl
  | unlink source target => exact h.of_cells (fun _ _ => exists_of_cell?_unlink) (nextId_unlink source target)
  | clear => exact .empty

theorem applyAll (h : s.Keyed) (calls : List Call) : (s.applyAll calls).Keyed := by
  induction calls generalizing s with
  | nil => exact h
  | cons call calls ih => exact ih (h.call call)

end Keyed

/-! ### How often an edge is recorded -/

section

variable {source target a b : NodeId}

theorem count_targets_link (hsource : source ∈ s.ids) :
    ((s.link source target).targets a).count b =
      (s.targets a).count b + if a = source ∧ b = target then 1 else 0 := by
  rw [targets_link_of_mem hsource]
  by_cases ha : a = source
  · simp [ha, List.count_singleton, @eq_comm _ b target]
  · simp [ha]

theorem count_inputs_link (htarget : target ∈ s.ids) :
    ((s.link source target).inputs b).count a = (s.inputs b).count a + if a = source ∧ b = target then 1 else 0 := by
  rw [inputs_link_of_mem htarget]
  by_cases hb : b = target
  · simp [hb, List.count_singleton, @eq_comm _ a source]
  · simp [hb]

theorem count_targets_unlink :
    ((s.unlink source target).targets a).count b =
      (s.targets a).count b - if a = source ∧ b = target then 1 else 0 := by
  rw [targets_unlink]
  by_cases ha : a = source
  · simp [ha, List.count_erase, @eq_comm _ b target]
  · simp [ha]

theorem count_inputs_unlink (hedge : target ∈ s.targets source) :
    ((s.unlink source target).inputs b).count a =
      (s.inputs b).count a - if a = source ∧ b = target then 1 else 0 := by
  rw [inputs_unlink hedge]
  by_cases hb : b = target
  · simp [hb, List.count_erase, @eq_comm _ a source]
  · simp [hb]

end

/-! ### Both sides of the edges -/

/-- Each edge is there as many times among the targets of its source as among the inputs of its end. -/
def Balanced (s : Store) : Prop := ∀ a b, (s.targets a).count b = (s.inputs b).count a

namespace Balanced

theorem mem_targets_iff (h : s.Balanced) {a b : NodeId} : b ∈ s.targets a ↔ a ∈ s.inputs b := by
  rw [← List.count_pos_iff, h, List.count_pos_iff]

theorem empty : Store.empty.Balanced := fun _ _ => rfl

theorem insert (h : s.Balanced) {c : Cell} (hc : c.id ∉ s.ids) : (s.insert c).Balanced := by
  intro a b
  rw [targets_insert_of_not_mem hc, inputs_insert_of_not_mem hc]
  exact h a b

theorem link (h : s.Balanced) {source target : NodeId} (hsource : source ∈ s.ids) (htarget : target ∈ s.ids) :
    (s.link source target).Balanced := by
  intro a b
  rw [count_targets_link hsource, count_inputs_link htarget, h]

/-- One record goes from each side. -/
theorem unlink (h : s.Balanced) (source target : NodeId) : (s.unlink source target).Balanced := by
  by_cases hedge : target ∈ s.targets source
  · intro a b
    rw [count_targets_unlink, count_inputs_unlink hedge, h]
  · rwa [unlink_of_not_mem hedge]

/-- The targets of the other cells keep all edges but those to the cell that is taken out. -/
theorem count_targets_detach (h : s.Balanced) (id a b : NodeId) :
    ((s.detach id).targets a).count b = if a = id ∨ b = id then 0 else (s.targets a).count b := by
  rw [targets_detach]
  by_cases ha : a = id
  · rw [if_pos ha, if_pos (Or.inl ha), List.count_nil]
  · rw [if_neg ha]
    by_cases hb : b = id
    · subst hb
      rw [if_pos (Or.inr rfl), List.count_eq_zero]
      split
      · simp
      · rename_i hin
        rwa [h.mem_targets_iff]
    · rw [if_neg (not_or.2 ⟨ha, hb⟩)]
      split
      · exact List.count_filter (by simpa using hb)
      · rfl

/-- As many inputs are taken away as there are edges. -/
private theorem count_inputs_iterate_removeInput (id a : NodeId) (n : Nat) (c : Cell) :
    ((fun c : Cell => c.removeInput id)^[n] c).inputs.count a = c.inputs.count a - if a = id then n else 0 := by
  induction n with
  | zero => simp
  | succ n ih =>
    rw [Function.iterate_succ_apply', Cell.inputs_removeInput, List.count_erase, ih]
    by_cases ha : a = id
    · simp [ha, Nat.sub_sub]
    · simp [ha, Ne.symm ha]

/-- The inputs of the other cells keep all edges but those from the cell that is taken out. -/
theorem count_inputs_detach (h : s.Balanced) (id a b : NodeId) :
    ((s.detach id).inputs b).count a = if a = id ∨ b = id then 0 else (s.inputs b).count a := by
  by_cases hb : b = id
  · rw [if_pos (Or.inr hb), Store.inputs, cell?_detach, if_pos hb]
    rfl
  · rcases hc : s.cell? b with _ | c
    · rw [Store.inputs, cell?_detach, if_neg hb, hc, Store.inputs, hc]
      simp
    · have hnew : (s.detach id).cell? b = some ((fun c => c.removeInput id)^[(s.targets id).count b] c) := by
        rw [cell?_detach, if_neg hb, hc, Option.map_some]
      rw [inputs_of_cell? hnew, count_inputs_iterate_removeInput, h, inputs_of_cell? hc]
      by_cases ha : a = id
      · simp [ha]
      · simp [ha, hb]

/-- Loops and parallel edges go with the cell that is taken out. -/
theorem detach (h : s.Balanced) (id : NodeId) : (s.detach id).Balanced := by
  intro a b
  rw [h.count_targets_detach, h.count_inputs_detach, h]

/-- A proper call keeps both sides of the edges the same. -/
theorem call (h : s.Balanced) (hkeyed : s.Keyed) {call : Call} (hproper : call.Proper s) : (call.apply s).Balanced := by
  cases call with
  | create name =>
    rcases apply_create (s := s) name with heq | ⟨id, hid, heq⟩
    · rwa [heq]
    · rw [heq]
      exact h.insert (not_mem_ids_of_freshId? hkeyed.below_nextId hid)
  | insert c => exact h.insert hproper
  | remove id =>
    rcases apply_remove (s := s) id with heq | heq
    · rwa [heq]
    · rw [heq]
      exact h.detach id
  | link source target => exact h.link hproper.1 hproper.2
  | unlink source target => exact h.unlink source target
  | clear => exact .empty

theorem applyAll (h : s.Balanced) (hkeyed : s.Keyed) {calls : List Call} (hproper : s.AllProper calls) :
    (s.applyAll calls).Balanced := by
  induction calls generalizing s with
  | nil => exact h
  | cons call calls ih => exact ih (h.call hkeyed hproper.1) (hkeyed.call call) hproper.2

end Balanced

/-- Whatever calls are made, cells and targets have the same ids in the same order, each of them once, each cell is under
its own id, and the number for the next id is above all of them.  If no call puts a cell in the place of another one and
edges join members, an edge is there as many times among the targets of its source as among the inputs of its end, and no
list mentions an id without a cell. -/
theorem applyAll_exact (calls : List Call) :
    (empty.applyAll calls).targetLists.ids = (empty.applyAll calls).cells.ids ∧
    (empty.applyAll calls).cells.ids.Nodup ∧
    (∀ id c, (empty.applyAll calls).cell? id = some c → c.id = id) ∧
    (∀ id ∈ (empty.applyAll calls).ids, id.val.toNat < (empty.applyAll calls).nextId) ∧
    (empty.AllProper calls →
      (∀ a b, ((empty.applyAll calls).targets a).count b = ((empty.applyAll calls).inputs b).count a) ∧
      ∀ a b, b ∈ (empty.applyAll calls).targets a ∨ a ∈ (empty.applyAll calls).inputs b →
        a ∈ (empty.applyAll calls).ids ∧ b ∈ (empty.applyAll calls).ids) := by
  have hkeyed := Keyed.empty.applyAll calls
  refine ⟨Store.ids_targetLists _, IdMap.nodup _, hkeyed.own_id, hkeyed.below_nextId, fun hproper => ?_⟩
  have hbalanced := Balanced.empty.applyAll .empty hproper
  refine ⟨hbalanced, fun a b hab => ?_⟩
  rw [hbalanced.mem_targets_iff, or_self] at hab
  exact ⟨mem_ids_of_mem_targets (hbalanced.mem_targets_iff.2 hab), mem_ids_of_mem_inputs hab⟩

/-- A loop and an edge that is there twice.  Both are gone once their source is taken out and put back. -/
theorem applyAll_exact_of_loop :
    let calls : List Call := [.create "a", .create "b", .link ⟨0⟩ ⟨0⟩, .link ⟨0⟩ ⟨1⟩, .link ⟨0⟩ ⟨1⟩]
    let later : List Call := calls ++ [.remove ⟨0⟩, .insert (.bare ⟨0⟩ "a")]
    empty.AllProper calls ∧ (empty.applyAll calls).targets ⟨0⟩ = [⟨0⟩, ⟨1⟩, ⟨1⟩] ∧
      ((empty.applyAll calls).inputs ⟨1⟩).count ⟨0⟩ = 2 ∧ ((empty.applyAll calls).inputs ⟨0⟩).count ⟨0⟩ = 1 ∧
      empty.AllProper later ∧ (empty.applyAll later).ids = [⟨1⟩, ⟨0⟩] ∧
      ((empty.applyAll later).inputs ⟨1⟩).count ⟨0⟩ = 0 := by
  intro calls later
  have hproper : empty.AllProper calls :=
    ⟨trivial, trivial, ⟨by decide, by decide⟩, ⟨by decide, by decide⟩, ⟨by decide, by decide⟩, trivial⟩
  have hfree : (⟨0⟩ : NodeId) ∉ (empty.applyAll (calls ++ [.remove ⟨0⟩])).ids := by decide
  have hlater : empty.AllProper later :=
    ⟨trivial, trivial, ⟨by decide, by decide⟩, ⟨by decide, by decide⟩, ⟨by decide, by decide⟩, trivial, hfree, trivial⟩
  have hbalanced := ((applyAll_exact calls).2.2.2.2 hproper).1
  have hrest := ((applyAll_exact later).2.2.2.2 hlater).1
  refine ⟨hproper, by decide, ?_, ?_, hlater, by decide, ?_⟩
  · rw [← hbalanced]
    decide
  · rw [← hbalanced]
    decide
  · rw [← hrest]
    decide

end CellGraph.Store
