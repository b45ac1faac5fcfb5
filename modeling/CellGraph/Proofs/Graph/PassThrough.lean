import CellGraph.Proofs.Formula.Execute
import CellGraph.Proofs.Graph.Connect
import CellGraph.Proofs.Graph.Recorded
import CellGraph.Proofs.Numeric.Exact

/-!
# A root that passes its input through

The formula `$1` reads its argument as a double and makes a number of that again.  So a root with this formula has the
number that its input spells, in the normal form of numbers (`Reachable.value?_eq_reading`), and it has the very value of
its input exactly if that is a number in normal form or not there at all (`Reachable.value?_of_passThrough`).
-/

namespace CellGraph

/-! ### Numbers in normal form -/

/-- Whether a number is the one that is made of its double: an integer that is small enough, or a double that does not
denote such an integer. -/
def Number.Normal : Number → Prop
  | .int n _ => n.natAbs ≤ Value.exactLimit
  | .float x _ => ∀ n, Binary64.toInt? x = some n → Value.exactLimit < n.natAbs

namespace Value

/-- The number that a value spells, in normal form. -/
def reading? (v : Value) : Option Value := v.toFloat?.bind ofFloat?

theorem ofExactInt?_of_le {n : Int} (hn : n.natAbs ≤ exactLimit)
    (hrange : -9223372036854775808 ≤ n ∧ n ≤ 18446744073709551615) :
    ofExactInt? n = some (.number (.int n hrange)) := by
  rw [ofExactInt?, dif_pos hn]

theorem ofExactInt?_of_lt {n : Int} (hn : exactLimit < n.natAbs) : ofExactInt? n = none := by
  rw [ofExactInt?, dif_neg (by omega)]

/-- A double that denotes a small integer is that integer. -/
theorem ofFloat?_of_toInt? {x : Float} {n : Int} (hx : Binary64.toInt? x = some n) (hn : n.natAbs ≤ exactLimit)
    (hrange : -9223372036854775808 ≤ n ∧ n ≤ 18446744073709551615) :
    ofFloat? x = some (.number (.int n hrange)) := by
  rw [ofFloat?, hx, Option.bind_some, ofExactInt?_of_le hn hrange, Option.some_or]

/-- Any other double stays a double. -/
theorem ofFloat?_of_no_exactInt {x : Float} (hx : ∀ n, Binary64.toInt? x = some n → exactLimit < n.natAbs) :
    ofFloat? x = (Number.ofFloat? x).map .number := by
  have hnone : (Binary64.toInt? x).bind ofExactInt? = none := by
    rw [Option.bind_eq_none_iff]
    exact fun n hn => ofExactInt?_of_lt (hx n hn)
  rw [ofFloat?, hnone, Option.none_or]

/-- What is made of a double is the small integer that it denotes, or the double itself if it denotes none. -/
theorem ofFloat?_cases {x : Float} {v : Value} (h : ofFloat? x = some v) :
    (∃ n hrange, Binary64.toInt? x = some n ∧ n.natAbs ≤ exactLimit ∧ v = .number (.int n hrange)) ∨
      ∃ hfinite, (∀ n, Binary64.toInt? x = some n → exactLimit < n.natAbs) ∧ v = .number (.float x hfinite) := by
  by_cases hx : ∀ n, Binary64.toInt? x = some n → exactLimit < n.natAbs
  · rw [ofFloat?_of_no_exactInt hx] at h
    obtain ⟨m, hm, rfl⟩ := Option.map_eq_some_iff.1 h
    by_cases hfinite : x.isFinite = true
    · rw [Number.ofFloat?, dif_pos hfinite] at hm
      exact Or.inr ⟨hfinite, hx, congrArg Value.number (Option.some.inj hm).symm⟩
    · rw [Number.ofFloat?, dif_neg hfinite] at hm
      exact absurd hm.symm (Option.some_ne_none m)
  · obtain ⟨n, hn, hle⟩ : ∃ n, Binary64.toInt? x = some n ∧ n.natAbs ≤ exactLimit := by
      simpa only [not_forall, not_lt, exists_prop] using hx
    have hrange : -9223372036854775808 ≤ n ∧ n ≤ 18446744073709551615 := by
      rw [exactLimit] at hle
      omega
    rw [ofFloat?_of_toInt? hn hle hrange] at h
    exact Or.inl ⟨n, hrange, hn, hle, (Option.some.inj h).symm⟩

/-- The numbers that are made of their own doubles are those in normal form. -/
theorem ofFloat?_toFloat_iff {n : Number} : ofFloat? n.toFloat = some (.number n) ↔ n.Normal := by
  constructor
  · intro h
    rcases ofFloat?_cases h with ⟨i, hrange, -, hle, heq⟩ | ⟨hfinite, hx, heq⟩
    · rw [Value.number.inj heq]
      exact hle
    · rw [Value.number.inj heq]
      exact hx
  · intro hn
    cases n with
    | int n hrange => exact ofFloat?_of_toInt? (Binary64.toInt?_ofInt hn) hn hrange
    | float x hfinite =>
      rw [Number.toFloat, ofFloat?_of_no_exactInt hn, Number.ofFloat?, dif_pos hfinite, Option.map_some]

/-- A value is what it spells exactly if it is a number in normal form. -/
theorem reading?_eq_some_iff {v : Value} : v.reading? = some v ↔ ∃ n, v = .number n ∧ n.Normal := by
  constructor
  · intro h
    obtain ⟨x, -, hx⟩ := Option.bind_eq_some_iff.1 h
    rcases ofFloat?_cases hx with ⟨n, hrange, -, -, rfl⟩ | ⟨hfinite, -, rfl⟩
    · exact ⟨_, rfl, ofFloat?_toFloat_iff.1 h⟩
    · exact ⟨_, rfl, ofFloat?_toFloat_iff.1 h⟩
  · rintro ⟨n, rfl, hn⟩
    exact ofFloat?_toFloat_iff.2 hn

end Value

/-! ### Roots -/

theorem Formula.compile_passThrough : compile "$1" 1 = .ok (ParseTree.argument 0).postorder := by
  have hchars : sanitize "$1".toList = ['$', '1'] := by decide
  have hlexes : Lexes ('$' :: (['1'] ++ [])) [.argument 0] := .argument (List.forall_mem_singleton.2 rfl) nofun .nil
  have hderives : Derives .expr [.argument 0] (.argument 0) :=
    .term (.power (.unary (.primary (.argument 0))))
  rw [compile_eq_ok_iff, hchars]
  exact ⟨firstUnresolved?_eq_none_iff.1 (by decide), _, _, hlexes, hderives, rfl⟩

/-- The code of `$1` gives what its argument spells, and nothing if it spells none. -/
theorem Program.run_passThrough (v : Option Value) :
    ((Program.code (Formula.ParseTree.argument 0).postorder).run [v]).toOption.join = v.bind Value.reading? := by
  rw [run, Formula.execute_postorder, Formula.ParseTree.eval, Formula.argument]
  rcases v with _ | v
  · rfl
  · rw [Option.bind_some, Value.reading?]
    dsimp only [List.getElem?_cons_zero]
    rcases v.toFloat? with _ | x
    · rfl
    · dsimp only [Option.bind_some]
      rcases Value.ofFloat? x with _ | w
      · rfl
      · rfl

/-- The value of a cell with a program: what the program gives, rounded, or the fallback. -/
theorem Cell.value_outcome {c : Cell} {program : Program} (h : c.rule.compile c.inputs.length = .ok program)
    (args : List (Option Value)) :
    (c.outcome args).value = ((program.run args).toOption.join.map c.rounded).or c.fallback := by
  simp only [outcome, h]
  rcases program.run args with e | v
  · rfl
  · rfl

/-- A cell with the formula `$1` and neither precision nor fallback has what its one argument spells. -/
theorem Cell.value_outcome_of_passThrough {c : Cell} {a : NodeId} (hformula : c.formula? = some (.expression "$1"))
    (hfallback : c.fallback = none) (hprecision : c.precision = none) (hinputs : c.inputs = [a]) (v : Option Value) :
    (c.outcome [v]).value = v.bind Value.reading? := by
  have hrule : c.rule = .formula (.expression "$1") := Rule.formula?_eq_some_iff.1 hformula
  have hprogram : c.rule.compile c.inputs.length = .ok (.code (Formula.ParseTree.argument 0).postorder) := by
    rw [hrule, hinputs, Rule.compile, List.length_singleton, Formula.compile_passThrough]
  have hrounded : ∀ w : Option Value, w.map c.rounded = w := by
    rintro (_ | w)
    · rfl
    · rw [Option.map_some, rounded, hprecision]
  rw [value_outcome hprogram, Program.run_passThrough, hrounded, hfallback, Option.or_none]

namespace Graph

variable {g : Graph} {a : NodeId}

/-- A root with the formula `$1` and neither precision nor fallback. -/
structure PassesThrough (g : Graph) (c : Cell) : Prop where
  root : g.cell? g.root = some c
  formula : c.formula? = some (.expression "$1")
  fallback : c.fallback = none
  precision : c.precision = none

/-- The value of a graph whose root passes its input through is the number that the input spells. -/
theorem Reachable.value?_eq_reading (hg : g.Reachable) {c : Cell} (hroot : g.PassesThrough c)
    (ha : a ∈ g.inputs g.root) : g.value? = (g.evaluate.1.value? a).bind Value.reading? := by
  have hinputs : c.inputs = [a] := by
    have hone := hg.wellFormed.root_inputs
    rw [inputs, Store.inputs_of_cell? hroot.root] at ha hone
    have hpos := List.length_pos_of_mem ha
    obtain ⟨b, hb⟩ : ∃ b, c.inputs = [b] := List.length_eq_one_iff.1 (by omega)
    rw [hb, List.mem_singleton] at ha
    rw [hb, ha]
  obtain ⟨d, hd, ho⟩ := hg.outcome?_eq hg.root_mem_order
  obtain rfl := Option.some.inj (hroot.root.symm.trans hd)
  rw [hg.value?_eq, Ledger.value?, ho, Option.bind_some, hinputs, List.map_singleton,
    Cell.value_outcome_of_passThrough hroot.formula hroot.fallback hroot.precision hinputs]

/-- The value of a graph whose root passes its input through is the number that the value recorded of the input spells,
in normal form.  It is that value itself exactly if there is none or it is a number in normal form. -/
theorem Reachable.value?_of_passThrough (hg : g.Reachable) {c : Cell} (hroot : g.PassesThrough c)
    (ha : a ∈ g.inputs g.root) :
    ∃ o, g.evaluate.1.outcome? a = some o ∧ g.value? = o.value.bind Value.reading? ∧
      (g.value? = o.value ↔ ∀ v, o.value = some v → ∃ n, v = .number n ∧ n.Normal) := by
  obtain ⟨o, ho, -⟩ := hg.outcome?_of_mem_order (hg.inputs_mem_order hg.root_mem_order a ha)
  have hvalue : g.value? = o.value.bind Value.reading? := by
    rw [hg.value?_eq_reading hroot ha, Ledger.value?, ho, Option.bind_some]
  refine ⟨o, ho, hvalue, ?_⟩
  rw [hvalue]
  rcases o.value with _ | v
  · exact iff_of_true rfl fun v hv => absurd hv.symm (Option.some_ne_none v)
  · rw [Option.bind_some, Value.reading?_eq_some_iff]
    constructor
    · intro hnormal w hw
      exact Option.some.inj hw ▸ hnormal
    · exact fun h => h v rfl

/-! ### A root that relays a fallback -/

/-- A graph with a cell that has nothing but a fallback. -/
def offering (v : Value) : Graph := initial.applyAll [.create "a", .onCell ⟨1⟩ (.setFallback (some v))]

/-- The root of such a graph passes the fallback through. -/
def relaying (v : Value) : Graph := (offering v).connect ⟨1⟩ ⟨0⟩

private theorem reachable_relaying (v : Value) : (relaying v).Reachable := reachable_feeding (.setFallback (some v))

private theorem passesThrough_relaying (v : Value) : ∃ c, (relaying v).PassesThrough c := by
  show ∃ c, (feeding (.setFallback (some v))).PassesThrough c
  rw [feeding_eq]
  exact ⟨_, rfl, rfl, rfl, rfl⟩

private theorem inputs_relaying (v : Value) : ⟨1⟩ ∈ (relaying v).inputs (relaying v).root :=
  mem_inputs_feeding (.setFallback (some v))

private theorem value?_relaying (v : Value) : (relaying v).evaluate.1.value? ⟨1⟩ = some v := by
  have hg := reachable_relaying v
  obtain ⟨c, hc, ho⟩ := hg.outcome?_eq (hg.inputs_mem_order hg.root_mem_order ⟨1⟩ (inputs_relaying v))
  obtain rfl := Option.some.inj (hc.symm.trans (cell?_feeding (.setFallback (some v))))
  rw [Ledger.value?, ho]
  rfl

/-- The largest integer of which all smaller ones are doubles is passed through. -/
theorem value?_of_passThrough_of_exactLimit :
    let v : Value := .number (.int 9007199254740992 (by decide))
    (∃ c, (relaying v).PassesThrough c) ∧ (relaying v).evaluate.1.value? ⟨1⟩ = some v ∧
      (relaying v).value? = some v := by
  intro v
  obtain ⟨c, hroot⟩ := passesThrough_relaying v
  obtain ⟨o, ho, -, hsame⟩ := Reachable.value?_of_passThrough (reachable_relaying v) hroot (inputs_relaying v)
  have hvalue : o.value = some v := by
    rw [← value?_relaying v, Ledger.value?, ho, Option.bind_some]
  refine ⟨⟨c, hroot⟩, value?_relaying v, (hsame.2 ?_).trans hvalue⟩
  rw [hvalue]
  intro w hw
  rw [← Option.some.inj hw]
  exact ⟨_, rfl, Nat.le_refl _⟩

/-- A truth value comes out of the root as a number, and the integer after the limit comes out as another one. -/
theorem value?_ne_of_coerced :
    let yes : Value := .bool true
    let odd : Value := .number (.int 9007199254740993 (by decide))
    ((relaying yes).Reachable ∧ (∃ c, (relaying yes).PassesThrough c) ∧
      ⟨1⟩ ∈ (relaying yes).inputs (relaying yes).root ∧
      (relaying yes).evaluate.1.value? ⟨1⟩ = some yes ∧ (relaying yes).value? = some (.number (.int 1 (by decide)))) ∧
    (relaying odd).evaluate.1.value? ⟨1⟩ = some odd ∧ (relaying odd).value? ≠ some odd := by
  intro yes odd
  have hvalue : ∀ v, (relaying v).value? = v.reading? := by
    intro v
    obtain ⟨c, hroot⟩ := passesThrough_relaying v
    rw [(reachable_relaying v).value?_eq_reading hroot (inputs_relaying v), value?_relaying, Option.bind_some]
  have hone : yes.reading? = some (.number (.int 1 (by decide))) :=
    Value.ofFloat?_of_toInt? (x := Binary64.ofInt 1) (Binary64.toInt?_ofInt (by decide)) (by decide) _
  refine ⟨⟨reachable_relaying yes, passesThrough_relaying yes, inputs_relaying yes, value?_relaying yes,
    (hvalue yes).trans hone⟩, value?_relaying odd, fun hsame => ?_⟩
  rw [hvalue odd, Value.reading?_eq_some_iff] at hsame
  obtain ⟨n, hn, hnormal⟩ := hsame
  obtain rfl := Value.number.inj hn
  exact absurd (show (9007199254740993 : Int).natAbs ≤ Value.exactLimit from hnormal) (by decide)

end Graph

end CellGraph
