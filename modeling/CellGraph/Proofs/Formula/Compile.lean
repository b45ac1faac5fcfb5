import CellGraph.Proofs.Formula.Lexer
import CellGraph.Proofs.Formula.Unambiguous

/-!
# Which formulas are compiled

A formula is compiled exactly if its references are in range, the characters that count are cut into tokens and the
tokens are an expression (`compile_eq_ok_iff`).
-/

namespace CellGraph.Formula

theorem compile_eq_ok_iff {formula : String} {arity : Nat} {code : List Instr} :
    compile formula arity = .ok code ↔ ReferencesInRange arity (sanitize formula.toList) ∧
      ∃ ts t, Lexes (sanitize formula.toList) ts ∧ Derives .expr ts t ∧ code = t.postorder := by
  rw [← firstUnresolved?_eq_none_iff]
  unfold compile
  constructor
  · intro h
    dsimp only at h
    split at h
    · nomatch h
    · rename_i hrefs
      split at h
      · nomatch h
      · rename_i ts hts
        split at h
        · nomatch h
        · rename_i code' hcode
          obtain rfl := Except.ok.inj h
          obtain ⟨t, ht, rfl⟩ := compileTokens_eq_ok_iff.1 hcode
          exact ⟨hrefs, ts, t, ofChars_eq_ok_iff.1 hts, ht, rfl⟩
  · rintro ⟨hrefs, ts, t, hts, ht, rfl⟩
    dsimp only
    rw [hrefs, ofChars_eq_ok_iff.2 hts]
    dsimp only
    rw [compileTokens_eq_ok_iff.2 ⟨t, ht, rfl⟩]

/-- The tokens of a text and the tree of its expression are determined. -/
theorem tree_unique {cs : List Char} {ts ts' : List Token} {t t' : ParseTree} (hts : Lexes cs ts)
    (ht : Derives .expr ts t) (hts' : Lexes cs ts') (ht' : Derives .expr ts' t') : ts' = ts ∧ t' = t := by
  obtain rfl : ts' = ts := Except.ok.inj ((ofChars_eq_ok_iff.2 hts').symm.trans (ofChars_eq_ok_iff.2 hts))
  exact ⟨rfl, ht'.unique ht⟩

/-- If all references are in range, a formula is compiled exactly if its text is cut into tokens that are an expression.
The code is the postorder of the tree, and there is one tree only. -/
theorem compile_exact {formula : String} {arity : Nat} (hrefs : ReferencesInRange arity (sanitize formula.toList)) :
    (∀ code, compile formula arity = .ok code ↔
      ∃ ts t, Lexes (sanitize formula.toList) ts ∧ Derives .expr ts t ∧ code = t.postorder) ∧
    (∀ ts t ts' t', Lexes (sanitize formula.toList) ts → Derives .expr ts t →
      Lexes (sanitize formula.toList) ts' → Derives .expr ts' t' → ts' = ts ∧ t' = t) := by
  constructor
  · intro code
    rw [compile_eq_ok_iff]
    exact ⟨fun h => h.2, fun h => ⟨hrefs, h⟩⟩
  · intro ts t ts' t' hts ht hts' ht'
    exact tree_unique hts ht hts' ht'

/-- A reference in range, and a signed operand after a power. -/
theorem compile_exact_of_power :
    ReferencesInRange 1 (sanitize "$1 ** -2".toList) ∧
      ∀ code, compile "$1 ** -2" 1 = .ok code ↔
        ∃ ts t, Lexes (sanitize "$1 ** -2".toList) ts ∧ Derives .expr ts t ∧ code = t.postorder := by
  have hrefs : ReferencesInRange 1 (sanitize "$1 ** -2".toList) := firstUnresolved?_eq_none_iff.1 (by decide)
  exact ⟨hrefs, (compile_exact hrefs).1⟩

end CellGraph.Formula
