import CellGraph.Proofs.Graph.Explained
import CellGraph.Proofs.Json.Same

/-!
# Results of formulas

The double that the code of a formula leaves is turned into a number that denotes the same.  It is an integer exactly if
the double is integral and at most two to the power of 53 in size (`Value.ofFloat?_eq_some_iff`).  So there are integral
results that fit in 64 bits and stay doubles.
-/

namespace CellGraph

/-- Whether a double is integral and at most two to the power of 53 in size. -/
def Binary64.IsSmallInt (x : Float) : Prop := (∃ i : Int, value x = i) ∧ |value x| ≤ 2 ^ 53

/-- Numbers of one kind that denote the same number are the same, up to the two zeros of the doubles. -/
theorem Number.eq_of_value_eq {m n : Number} (hkind : m.isInt = n.isInt) (hvalue : m.value = n.value)
    (hzero : m.isInt = true ∨ m.value ≠ 0) : m = n := by
  cases m with
  | int i hi =>
    cases n with
    | int j hj =>
      obtain rfl : i = j := Int.cast_injective hvalue
      rfl
    | float y hy => exact absurd hkind Bool.noConfusion
  | float x hx =>
    cases n with
    | int j hj => exact absurd hkind Bool.noConfusion
    | float y hy =>
      obtain rfl : x = y := Binary64.eq_of_value_eq hx hy (hzero.resolve_left Bool.noConfusion) hvalue
      rfl

namespace Value

variable {x : Float} {v : Value}

theorem natAbs_le_exactLimit_iff {i : Int} : i.natAbs ≤ exactLimit ↔ |(i : ℚ)| ≤ 2 ^ 53 := by
  rw [← Int.cast_abs, ← Nat.cast_natAbs, exactLimit]
  exact_mod_cast Iff.rfl

/-- The doubles that are turned into integers. -/
theorem exists_exactInt_iff (hx : x.isFinite = true) :
    (∃ i, Binary64.toInt? x = some i ∧ i.natAbs ≤ exactLimit) ↔ Binary64.IsSmallInt x := by
  simp only [Binary64.toInt?_eq_some_iff hx, natAbs_le_exactLimit_iff]
  constructor
  · rintro ⟨i, hi, hle⟩
    exact ⟨⟨i, hi⟩, hi ▸ hle⟩
  · rintro ⟨⟨i, hi⟩, hle⟩
    exact ⟨i, hi, hi ▸ hle⟩

private theorem of_ofFloat? (h : ofFloat? x = some v) :
    x.isFinite = true ∧ ∃ n, v = .number n ∧ n.value = Binary64.value x ∧
      (n.isInt = true ↔ Binary64.IsSmallInt x) := by
  rcases ofFloat?_cases h with ⟨i, hrange, hi, hle, rfl⟩ | ⟨hx, hnone, rfl⟩
  · have hx := Binary64.isFinite_of_toInt? hi
    exact ⟨hx, _, rfl, ((Binary64.toInt?_eq_some_iff hx).1 hi).symm,
      iff_of_true rfl ((exists_exactInt_iff hx).1 ⟨i, hi, hle⟩)⟩
  · refine ⟨hx, _, rfl, rfl, iff_of_false Bool.noConfusion fun hsmall => ?_⟩
    obtain ⟨i, hi, hle⟩ := (exists_exactInt_iff hx).2 hsmall
    have hlt := hnone i hi
    omega

theorem exists_ofFloat? (hx : x.isFinite = true) :
    ∃ n, ofFloat? x = some (.number n) ∧ n.value = Binary64.value x ∧ (n.isInt = true ↔ Binary64.IsSmallInt x) := by
  obtain ⟨v, hv⟩ : ∃ v, ofFloat? x = some v := by
    rw [← Option.ne_none_iff_exists', ne_eq, ofFloat?_eq_none_iff, hx]
    exact Bool.noConfusion
  obtain ⟨-, n, rfl, hvalue, hkind⟩ := of_ofFloat? hv
  exact ⟨n, hv, hvalue, hkind⟩

/-- What is made of a finite double denotes the same, and it is an integer exactly if the double is a small one. -/
theorem ofFloat?_eq_some_iff :
    ofFloat? x = some v ↔ x.isFinite = true ∧ ∃ n, v = .number n ∧ n.value = Binary64.value x ∧
      (n.isInt = true ↔ Binary64.IsSmallInt x) := by
  refine ⟨of_ofFloat?, ?_⟩
  rintro ⟨hx, n, rfl, hvalue, hkind⟩
  obtain ⟨k, hk, hvalue', hkind'⟩ := exists_ofFloat? hx
  have hsame : n = k := by
    refine Number.eq_of_value_eq ?_ (hvalue.trans hvalue'.symm) ?_
    · rw [Bool.eq_iff_iff, hkind, hkind']
    · -- a double that denotes zero is turned into an integer
      rw [hkind, hvalue]
      by_cases hzero : Binary64.value x = 0
      · exact Or.inl ⟨⟨0, by rw [hzero, Int.cast_zero]⟩, by norm_num [hzero]⟩
      · exact Or.inr hzero
  rw [hk, hsame]

end Value

namespace Program

variable {instrs : List Formula.Instr} {args : List (Option Value)}

/-- The three ways in which a run of code ends. -/
theorem run_code_cases (instrs : List Formula.Instr) (args : List (Option Value)) :
    (∃ e, Formula.execute instrs args = .error e ∧ (code instrs).run args = .error e) ∨
      (∃ x, Formula.execute instrs args = .ok x ∧ x.isFinite = false ∧ (code instrs).run args = .error .nonFinite) ∨
      ∃ x v, Formula.execute instrs args = .ok x ∧ Value.ofFloat? x = some v ∧ (code instrs).run args = .ok (some v) := by
  rw [run]
  rcases Formula.execute instrs args with e | x
  · exact Or.inl ⟨e, rfl, rfl⟩
  · dsimp only
    rcases hvalue : Value.ofFloat? x with _ | v
    · exact Or.inr (Or.inl ⟨x, rfl, Value.ofFloat?_eq_none_iff.1 hvalue, rfl⟩)
    · exact Or.inr (Or.inr ⟨x, v, rfl, hvalue, rfl⟩)

/-- Code gives the value of the double that it leaves. -/
theorem run_code_eq_some_iff {v : Value} :
    (code instrs).run args = .ok (some v) ↔ ∃ x, Formula.execute instrs args = .ok x ∧ Value.ofFloat? x = some v := by
  rcases run_code_cases instrs args with ⟨e, hexecute, hrun⟩ | ⟨x, hexecute, hx, hrun⟩ | ⟨x, w, hexecute, hw, hrun⟩
  · simp [hexecute, hrun]
  · simp [hexecute, hrun, Value.ofFloat?_eq_none_iff.2 hx]
  · simp [hexecute, hrun, hw]

/-- Code does not end without a value and without a fault. -/
theorem run_code_ne_none : (code instrs).run args ≠ .ok none := by
  rcases run_code_cases instrs args with ⟨e, -, hrun⟩ | ⟨x, -, -, hrun⟩ | ⟨x, v, -, -, hrun⟩
  · simp [hrun]
  · simp [hrun]
  · simp [hrun]

/-- Code fails as its instructions do, or because what they leave is not finite. -/
theorem run_code_eq_error_iff {e : Formula.EvalError} :
    (code instrs).run args = .error e ↔ Formula.execute instrs args = .error e ∨
      e = .nonFinite ∧ ∃ x, Formula.execute instrs args = .ok x ∧ x.isFinite = false := by
  rcases run_code_cases instrs args with ⟨d, hexecute, hrun⟩ | ⟨x, hexecute, hx, hrun⟩ | ⟨x, v, hexecute, hv, hrun⟩
  · simp [hexecute, hrun]
  · simpa [hexecute, hrun, hx] using eq_comm
  · have hx : x.isFinite = true := (Value.ofFloat?_eq_some_iff.1 hv).1
    simp [hexecute, hrun, hx]

/-- Code gives a value exactly if it leaves a finite double.  The value is a number that denotes what the double does,
and it is an integer exactly if the double is integral and at most two to the power of 53 in size.  Code never ends
without a value and without a fault; the fault is that of the code, or that what it leaves is not finite. -/
theorem run_code_exact (instrs : List Formula.Instr) (args : List (Option Value)) :
    (∀ v, (code instrs).run args = .ok (some v) ↔
      ∃ x, Formula.execute instrs args = .ok x ∧ x.isFinite = true ∧
        ∃ n, v = .number n ∧ n.value = Binary64.value x ∧ (n.isInt = true ↔ Binary64.IsSmallInt x)) ∧
    (code instrs).run args ≠ .ok none ∧
    ∀ e, (code instrs).run args = .error e ↔
      Formula.execute instrs args = .error e ∨
        e = .nonFinite ∧ ∃ x, Formula.execute instrs args = .ok x ∧ x.isFinite = false := by
  refine ⟨fun v => ?_, run_code_ne_none, fun e => run_code_eq_error_iff⟩
  simp only [run_code_eq_some_iff, Value.ofFloat?_eq_some_iff]

open Binary64 in
/-- The second integer after two to the power of 53 is a double and fits in 64 bits, but as the result of a formula it
is no integer. -/
theorem run_code_not_isInt_beyond_limit :
    let beyond : Number := .int 9007199254740994 (by decide)
    let root := Program.code (Formula.ParseTree.argument 0).postorder
    Formula.compile "$1" 1 = .ok (Formula.ParseTree.argument 0).postorder ∧
      ∃ x n, Formula.execute (Formula.ParseTree.argument 0).postorder [some (.number beyond)] = .ok x ∧
        x.isFinite = true ∧ value x = (9007199254740994 : Int) ∧
        (-9223372036854775808 : Int) ≤ 9007199254740994 ∧ (9007199254740994 : Int) ≤ 9223372036854775807 ∧
        root.run [some (.number beyond)] = .ok (some (.number n)) ∧ n.isInt = false := by
  intro beyond root
  have hint : toInt? (ofInt 9007199254740994) = some 9007199254740994 := by decide
  have hx : (ofInt 9007199254740994).isFinite = true := isFinite_ofInt (by decide)
  have hexecute : Formula.execute (Formula.ParseTree.argument 0).postorder [some (.number beyond)] =
      .ok (ofInt 9007199254740994) := rfl
  refine ⟨Formula.compile_passThrough, _, .float _ hx, hexecute, hx, (toInt?_eq_some_iff hx).1 hint, by decide,
    by decide, run_code_eq_some_iff.2 ⟨_, hexecute, ?_⟩, rfl⟩
  have hnone : ∀ n, toInt? (ofInt 9007199254740994) = some n → Value.exactLimit < n.natAbs := by
    intro n hn
    obtain rfl := Option.some.inj (hint.symm.trans hn)
    decide
  rw [Value.ofFloat?_of_no_exactInt hnone, Number.ofFloat?, dif_pos hx, Option.map_some]

end Program

end CellGraph
