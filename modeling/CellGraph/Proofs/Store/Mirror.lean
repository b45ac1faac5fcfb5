import CellGraph.Proofs.Store.Views

/-!
# The mirror at one cell

The edges to a cell are recorded twice: among the targets of their sources, and as the inputs of the cell.  Both agree
at an id if the id is in line (`Store.InLine`).  What an operation does to the edges of one cell depends on that cell
only, so an id that is in line stays so, whatever other cells say of themselves: a new cell (`InLine.insert`), a removal
(`InLine.detach`), a new edge (`InLine.link`) and the end of an edge (`InLine.unlink`) keep it in line.
-/

namespace CellGraph.Store

/-! ### Lists without repeats -/

private theorem nodup_snoc {ids : List NodeId} {id : NodeId} (h : ids.Nodup) (hnew : id ∉ ids) :
    (ids ++ [id]).Nodup := by
  rw [← List.concat_eq_append]
  exact h.concat hnew

theorem nodup_targets_link {s : Store} (h : ∀ a, (s.targets a).Nodup) {source target : NodeId} (hsource : source ∈ s.ids)
    (hnew : target ∉ s.targets source) (a : NodeId) : ((s.link source target).targets a).Nodup := by
  rw [targets_link_of_mem hsource]
  split
  · rename_i ha
    exact nodup_snoc (h a) (ha ▸ hnew)
  · exact h a

/-! ### Being in line -/

/-- A cell that is under its own id, with the edges to it as its inputs, each once. -/
structure InLine (s : Store) (b : NodeId) : Prop where
  own_id : ∀ c, s.cell? b = some c → c.id = b
  mirror : ∀ a, b ∈ s.targets a ↔ a ∈ s.inputs b
  nodup_inputs : (s.inputs b).Nodup

namespace InLine

variable {s t : Store} {b : NodeId}

/-- A change that leaves a cell and the edges to it as they are. -/
theorem of_views (h : s.InLine b) (hown : ∀ c, t.cell? b = some c → ∃ d, s.cell? b = some d ∧ c.id = d.id)
    (htargets : ∀ a, b ∈ t.targets a ↔ b ∈ s.targets a) (hinputs : (t.inputs b).Perm (s.inputs b)) : t.InLine b := by
  refine ⟨fun c hc => ?_, fun a => ?_, hinputs.nodup_iff.2 h.nodup_inputs⟩
  · obtain ⟨d, hd, hcd⟩ := hown c hc
    exact hcd.trans (h.own_id d hd)
  · rw [htargets, hinputs.mem_iff]
    exact h.mirror a

/-- A new cell is in line, and so are those that were. -/
theorem insert (h : s.InLine b) {c : Cell} (hc : c.id ∉ s.ids) : (s.insert c).InLine b := by
  refine ⟨own_id_insert h.own_id c, fun a => ?_, ?_⟩
  · rw [targets_insert_of_not_mem hc, inputs_insert_of_not_mem hc]
    exact h.mirror a
  · rw [inputs_insert_of_not_mem hc]
    exact h.nodup_inputs

/-! ### Taking a cell out -/

private theorem filter_of_not_mem {ids : List NodeId} {id : NodeId} (hid : id ∉ ids) : ids.filter (· != id) = ids := by
  rw [List.filter_eq_self]
  intro i hi
  have hne : i ≠ id := fun he => hid (he ▸ hi)
  simpa using hne

/-- Once the cell of an id that is in line is taken out, no targets mention the id. -/
theorem targets_detach (h : s.InLine b) (i : NodeId) :
    (s.detach b).targets i = if i = b then [] else (s.targets i).filter (· != b) := by
  rw [Store.targets_detach]
  split
  · rfl
  · split
    · rfl
    · rename_i hin
      rw [← h.mirror] at hin
      exact (filter_of_not_mem hin).symm

/-- A cell that is in line loses the id that is taken out from its inputs. -/
theorem inputs_detach (h : s.InLine b) {id : NodeId} (hnodup : (s.targets id).Nodup) :
    (s.detach id).inputs b = if b = id then [] else (s.inputs b).filter (· != id) := by
  by_cases hb : b = id
  · rw [if_pos hb, inputs, cell?_detach, if_pos hb]
  · rw [if_neg hb]
    rcases hc : s.cell? b with _ | c
    · rw [inputs, cell?_detach, if_neg hb, hc, inputs, hc]
      rfl
    · have hnew : (s.detach id).cell? b = some ((fun c => c.removeInput id)^[(s.targets id).count b] c) := by
        rw [cell?_detach, if_neg hb, hc, Option.map_some]
      have hinputs := h.nodup_inputs
      rw [inputs_of_cell? hc] at hinputs
      rw [inputs_of_cell? hnew, inputs_of_cell? hc]
      by_cases hin : b ∈ s.targets id
      · rw [List.count_eq_one_of_mem hnodup hin, Function.iterate_one, Cell.inputs_removeInput,
          hinputs.erase_eq_filter]
      · have hid : id ∉ c.inputs := by
          rwa [← inputs_of_cell? hc, ← h.mirror]
        rw [List.count_eq_zero.2 hin, Function.iterate_zero, filter_of_not_mem hid]
        rfl

theorem detach (h : s.InLine b) {id : NodeId} (hnodup : (s.targets id).Nodup) : (s.detach id).InLine b := by
  by_cases hb : b = id
  · subst hb
    refine ⟨fun c hc => ?_, fun a => ?_, ?_⟩
    · rw [cell?_detach, if_pos rfl] at hc
      nomatch hc
    · rw [h.inputs_detach hnodup, if_pos rfl, h.targets_detach]
      split <;> simp
    · rw [h.inputs_detach hnodup, if_pos rfl]
      exact List.nodup_nil
  · refine ⟨fun c hc => ?_, fun a => ?_, ?_⟩
    · obtain ⟨d, hd, hcd⟩ := exists_of_cell?_detach hc
      exact hcd.trans (h.own_id d hd)
    · rw [h.inputs_detach hnodup, if_neg hb, List.mem_filter, ← h.mirror, Store.targets_detach]
      by_cases ha : a = id
      · simp [ha]
      · rw [if_neg ha]
        split <;> simp [ha, hb]
    · rw [h.inputs_detach hnodup, if_neg hb]
      exact h.nodup_inputs.filter _

/-! ### Edges -/

/-- A new edge between members. -/
theorem link (h : s.InLine b) {source target : NodeId} (hsource : source ∈ s.ids) (htarget : target ∈ s.ids)
    (hnew : target ∉ s.targets source) : (s.link source target).InLine b := by
  have htargets := targets_link_of_mem hsource target
  have hinputs := inputs_link_of_mem htarget source
  refine ⟨fun c hc => ?_, fun a => ?_, ?_⟩
  · obtain ⟨d, hd, hcd⟩ := exists_of_cell?_link hc
    exact hcd.trans (h.own_id d hd)
  · have hleft : b ∈ (s.link source target).targets a ↔ b ∈ s.targets a ∨ a = source ∧ b = target := by
      rw [htargets]
      by_cases ha : a = source <;> simp [ha]
    have hright : a ∈ (s.link source target).inputs b ↔ a ∈ s.inputs b ∨ b = target ∧ a = source := by
      rw [hinputs]
      by_cases hb : b = target <;> simp [hb]
    rw [hleft, hright, h.mirror a, and_comm]
  · rw [hinputs]
    split
    · rename_i hb
      have hnew' : source ∉ s.inputs b := fun hin => hnew (hb ▸ (h.mirror source).2 hin)
      exact nodup_snoc h.nodup_inputs hnew'
    · exact h.nodup_inputs

/-- A cell that is in line loses exactly the input with which an edge ends. -/
theorem inputs_unlink (h : s.InLine b) (source target : NodeId) :
    (s.unlink source target).inputs b = (s.inputs b).filter fun i => !(i == source && b == target) := by
  by_cases hedge : target ∈ s.targets source
  · rw [Store.inputs_unlink hedge, h.nodup_inputs.erase_eq_filter]
    by_cases hb : b = target
    · simp [hb, bne]
    · simp [hb, beq_false_of_ne hb]
  · rw [unlink_of_not_mem hedge]
    symm
    rw [List.filter_eq_self]
    intro i hi
    have hne : ¬ (i = source ∧ b = target) := by
      rintro ⟨rfl, rfl⟩
      exact hedge ((h.mirror i).2 hi)
    rwa [Bool.not_eq_true', ← Bool.not_eq_true, Bool.and_eq_true, beq_iff_eq, beq_iff_eq]

theorem unlink (h : s.InLine b) {source target : NodeId} (hnodup : (s.targets source).Nodup) :
    (s.unlink source target).InLine b := by
  refine ⟨fun c hc => ?_, fun a => ?_, ?_⟩
  · obtain ⟨d, hd, hcd⟩ := exists_of_cell?_unlink hc
    exact hcd.trans (h.own_id d hd)
  · rw [h.inputs_unlink, List.mem_filter, ← h.mirror, targets_unlink]
    by_cases ha : a = source
    · subst ha
      rw [if_pos rfl, hnodup.mem_erase_iff, and_comm]
      simp
    · simp [ha]
  · rw [h.inputs_unlink]
    exact h.nodup_inputs.filter _

end InLine

end CellGraph.Store
