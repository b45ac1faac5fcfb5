import CellGraph.Proofs.Formula.References

/-!
# References that are not broken up

The characters that do not count are dropped before a formula is compiled, so they may stand between a dollar sign and
its digits or among these.  If none does (`Unbroken`), the references of the text are those that are compiled, and as
long as these are in range there is no other way for both to be the same (`references_sanitize_iff`).
-/

namespace CellGraph

namespace Formula

variable {cs : List Char} {arity : Nat}

/-- No character that does not count stands between a dollar sign and its digits or among these. -/
def Unbroken (cs : List Char) : Prop :=
  ∀ before after, cs = before ++ '$' :: after → (sanitize after).takeWhile isDigit = after.takeWhile isDigit

theorem unbroken_nil : Unbroken [] := fun before after h => by simp at h

theorem unbroken_cons_iff {c : Char} : Unbroken (c :: cs) ↔
    (c = '$' → (sanitize cs).takeWhile isDigit = cs.takeWhile isDigit) ∧ Unbroken cs :=
  forall_dollar_cons_iff

/-- If all characters count, nothing is broken up. -/
theorem unbroken_of_forall (h : ∀ c ∈ cs, isFormulaChar c = true) : Unbroken cs := by
  rintro before after rfl
  rw [sanitize, List.filter_eq_self.2 fun c hc => h c (List.mem_append_right _ (List.mem_cons_of_mem _ hc))]

theorem sanitize_cons_of_pos {c : Char} (hc : isFormulaChar c = true) : sanitize (c :: cs) = c :: sanitize cs :=
  List.filter_cons_of_pos hc

theorem isFormulaChar_of_isDigit {c : Char} (hc : isDigit c = true) : isFormulaChar c = true := by
  rw [isFormulaChar, hc, Bool.true_or, Bool.true_or]

/-- The digits that start a text are still there without the characters that do not count. -/
theorem takeWhile_prefix_sanitize (cs : List Char) : cs.takeWhile isDigit <+: (sanitize cs).takeWhile isDigit := by
  induction cs with
  | nil => exact List.prefix_rfl
  | cons c cs ih =>
    by_cases hc : isDigit c = true
    · rw [sanitize_cons_of_pos (isFormulaChar_of_isDigit hc), List.takeWhile_cons_of_pos hc,
        List.takeWhile_cons_of_pos hc]
      exact List.cons_prefix_cons.2 ⟨rfl, ih⟩
    · rw [List.takeWhile_cons_of_neg hc]
      exact List.nil_prefix

/-- The references of a text are those that are compiled exactly if none is broken up. -/
theorem references_sanitize_iff (h : ReferencesInRange arity (sanitize cs)) :
    references (sanitize cs) = references cs ↔ Unbroken cs := by
  induction cs with
  | nil => exact iff_of_true rfl unbroken_nil
  | cons c cs ih =>
    rw [unbroken_cons_iff]
    by_cases hc : c = '$'
    · subst hc
      rw [sanitize_cons_of_pos (by decide), referencesInRange_cons_iff] at h
      rw [sanitize_cons_of_pos (by decide), references, references, if_pos rfl, if_pos rfl, List.cons.injEq, ih h.2]
      -- Without the characters that do not count there may be more digits, but then they are worth more.
      refine and_congr_left' ⟨fun hvalue _ => ?_, fun heq => by rw [heq rfl]⟩
      exact eq_of_prefix_of_digitsValue_eq (takeWhile_prefix_sanitize cs) hvalue (h.1 rfl).2.1
    · have hrest : references (sanitize (c :: cs)) = references (sanitize cs) ∧
          ReferencesInRange arity (sanitize cs) := by
        by_cases hcounts : isFormulaChar c = true
        · rw [sanitize_cons_of_pos hcounts, referencesInRange_cons_iff] at h
          rw [sanitize_cons_of_pos hcounts, references, if_neg hc]
          exact ⟨rfl, h.2⟩
        · rw [sanitize, List.filter_cons_of_neg hcounts, ← sanitize] at h ⊢
          exact ⟨rfl, h⟩
      rw [hrest.1, references, if_neg hc, ih hrest.2]
      exact (and_iff_right fun h => absurd h hc).symm

end Formula

end CellGraph
