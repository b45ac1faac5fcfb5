import CellGraph.Cell.Basic
import CellGraph.Proofs.Json.Same

/-!
# Cells with the same configuration

The configuration of a cell is its id and its name, its formula and its table, its fallback and its places.  It is
compared field by field, and the comparison holds exactly for cells with the same configuration (`Cell.SameConfig`) whose
formula is not the constant that is no number (`Cell.sameConfig_iff`): that constant is not equal even to itself, so such
a cell does not compare as itself.
-/

namespace CellGraph

/-! ### Formulas -/

namespace Formula

/-- Two formulas have the same text or the same constant.  The two zeros are the same constant. -/
inductive Same : Formula → Formula → Prop where
  | expression (text : String) : Same (.expression text) (.expression text)
  | number (x : Float) : Same (.number x) (.number x)
  | zero {x y : Float} : x = 0 ∨ x = -0 → y = 0 ∨ y = -0 → Same (.number x) (.number y)

variable {f g : Formula}

theorem Same.refl (f : Formula) : f.Same f := by
  cases f with
  | number x => exact .number x
  | expression s => exact .expression s

private theorem zero_ne_nan {x : Float} (h : x = 0 ∨ x = -0) : x ≠ .nan := by
  rcases h with rfl | rfl <;> decide

theorem same_iff : f.same g = true ↔ f.Same g ∧ f ≠ .number .nan := by
  cases f with
  | number x =>
    cases g with
    | number y =>
      have hne : Formula.number x ≠ .number .nan ↔ x ≠ .nan := by rw [ne_eq, Formula.number.injEq]
      rw [Formula.same, Float.beq_iff_ne_nan_and_eq, hne]
      constructor
      · rintro ⟨hx, -, rfl | ⟨rfl, rfl⟩ | ⟨rfl, rfl⟩⟩
        · exact ⟨.number x, hx⟩
        · exact ⟨.zero (Or.inl rfl) (Or.inr rfl), hx⟩
        · exact ⟨.zero (Or.inr rfl) (Or.inl rfl), hx⟩
      · rintro ⟨_ | _ | ⟨hx0, hy0⟩, hx⟩
        · exact ⟨hx, hx, Or.inl rfl⟩
        · refine ⟨hx, zero_ne_nan hy0, ?_⟩
          rcases hx0 with rfl | rfl <;> rcases hy0 with rfl | rfl <;> simp
    | expression t => exact iff_of_false nofun fun h => nomatch h.1
  | expression s =>
    cases g with
    | number y => exact iff_of_false nofun fun h => nomatch h.1
    | expression t =>
      rw [Formula.same, beq_iff_eq]
      constructor
      · rintro rfl
        exact ⟨.expression s, nofun⟩
      · rintro ⟨⟨⟩, -⟩
        rfl

end Formula

/-! ### Tables -/

namespace Table

/-- Two tables have the same entries in the same order. -/
def Same (s t : Table) : Prop := List.Forall₂ (fun d e => d.1.Same e.1 ∧ d.2.Same e.2) s.entries t.entries

variable {s t : Table}

theorem Same.refl (t : Table) : t.Same t :=
  List.forall₂_same.2 fun e _ => ⟨Value.same_iff.1 e.1.same_self, Value.same_iff.1 e.2.same_self⟩

theorem same_iff : s.same t = true ↔ s.Same t := by
  show same.go s.entries t.entries = true ↔ List.Forall₂ _ s.entries t.entries
  generalize s.entries = ds, t.entries = es
  induction ds generalizing es with
  | nil => cases es <;> simp [same.go]
  | cons d ds ih => cases es <;> simp [same.go, ih, Value.same_iff]

end Table

/-! ### Cells -/

/-- Rules are compared by their formulas and their tables. -/
theorem Rule.same_iff {r s : Rule} : r.same s = true ↔
    Option.Rel Formula.Same r.formula? s.formula? ∧ r.formula? ≠ some (.number .nan) ∧ r.table.Same s.table := by
  cases r with
  | formula f =>
    cases s with
    | formula g => simp [same, formula?, table, Formula.same_iff, Table.Same.refl]
    | lookup t => exact iff_of_false nofun fun h => nomatch h.1
  | lookup t =>
    cases s with
    | formula g => exact iff_of_false nofun fun h => nomatch h.1
    | lookup u => simp [same, formula?, table, Table.same_iff]

namespace Cell

/-- Two cells have the same id and name, formula and table, fallback and places. -/
structure SameConfig (c d : Cell) : Prop where
  id : c.id = d.id
  name : c.name = d.name
  formula : Option.Rel Formula.Same c.formula? d.formula?
  table : c.table.Same d.table
  fallback : Option.Rel Value.Same c.fallback d.fallback
  precision : c.precision = d.precision

theorem SameConfig.refl (c : Cell) : c.SameConfig c where
  id := rfl
  name := rfl
  formula := by
    cases c.formula? with
    | none => exact .none
    | some f => exact .some (.refl f)
  table := .refl c.table
  fallback := by
    cases c.fallback with
    | none => exact .none
    | some v => exact .some (Value.same_iff.1 v.same_self)
  precision := rfl

theorem sameFallback_iff {v w : Option Value} : sameFallback v w = true ↔ Option.Rel Value.Same v w := by
  cases v <;> cases w <;> simp [sameFallback, Value.same_iff]

/-- Cells are compared by their configuration, but a cell whose constant is no number is not the same as any. -/
theorem sameConfig_iff {c d : Cell} :
    c.sameConfig d = true ↔ c.SameConfig d ∧ c.formula? ≠ some (.number .nan) := by
  simp only [sameConfig, Bool.and_eq_true, beq_iff_eq, Rule.same_iff, sameFallback_iff]
  constructor
  · rintro ⟨⟨⟨⟨hid, hname⟩, hformula, hnumber, htable⟩, hfallback⟩, hprecision⟩
    exact ⟨⟨hid, hname, hformula, htable, hfallback, hprecision⟩, hnumber⟩
  · rintro ⟨h, hnumber⟩
    exact ⟨⟨⟨⟨h.id, h.name⟩, h.formula, hnumber, h.table⟩, h.fallback⟩, h.precision⟩

end Cell

end CellGraph
