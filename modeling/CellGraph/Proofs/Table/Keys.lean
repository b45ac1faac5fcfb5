import CellGraph.Scalar
import CellGraph.Proofs.Json.Same

/-!
# Keys that name the same entry

Two numbers name the same entry if their nearest doubles denote the same number (`Value.keyMatches_number`), so equal
numbers do, of either kind, and all other keys do if they are the same value.  Matching is an equivalence
(`Value.keyMatches_equivalence`), and so keys come in classes, each of which has one entry at most.
-/

namespace CellGraph.Value

theorem keyMatches_number {m n : Number} : (number m).keyMatches (number n) = true ↔
    Binary64.value m.toFloat = Binary64.value n.toFloat :=
  Binary64.beq_iff_value_eq m.isFinite_toFloat n.isFinite_toFloat

theorem keyMatches_self (k : Value) : k.keyMatches k = true := by
  cases k with
  | number n => exact keyMatches_number.2 rfl
  | _ => exact same_self _

/-- Whatever matches a key matches the same as it. -/
theorem respects_keyMatches (k : Value) : Respects keyMatches k := by
  intro l h p
  cases k with
  | number m =>
    cases l with
    | number n =>
      cases p with
      | number i => rw [Bool.eq_iff_iff, keyMatches_number, keyMatches_number, keyMatches_number.1 h]
      | _ => rfl
    | _ => nomatch h
  | _ =>
    -- what is the same as a key that is no number is no number either
    cases l with
    | number n => nomatch h
    | _ => exact respects_same _ _ h p

theorem keyMatches_equivalence : Equivalence fun k l : Value => k.keyMatches l = true :=
  equivalence_of_respects keyMatches_self respects_keyMatches

theorem keyMatches_symm (k l : Value) : k.keyMatches l = l.keyMatches k := by
  rw [Bool.eq_iff_iff]
  exact ⟨fun h => keyMatches_equivalence.symm h, fun h => keyMatches_equivalence.symm h⟩

theorem keyMatches_congr {k l : Value} (h : k.keyMatches l = true) (p : Value) : p.keyMatches k = p.keyMatches l := by
  rw [keyMatches_symm p k, keyMatches_symm p l, respects_keyMatches k l h p]

end CellGraph.Value
