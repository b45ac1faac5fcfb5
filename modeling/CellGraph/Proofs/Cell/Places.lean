import CellGraph.Proofs.Cell.Outcome
import CellGraph.Proofs.Formula.Result
import CellGraph.Proofs.Table.Lookup

/-!
# Integers rounded to decimal places

An integer needs no rounding, but it is scaled up, rounded and scaled down again in doubles.  The step in the middle does
nothing, because the nearest double to an integer is an integer, but each scaling gives the nearest double only.  So an
integer stays itself exactly if these two steps lead back to it (`Value.roundTo_int_eq_self_iff`): the small ones do, for
which scaling up is exact, and none beyond two to the power of 53 does.
-/

namespace CellGraph

namespace Binary64

variable {x : Float}

/-- A double that denotes an integer is rounded to itself. -/
theorem roundHalfAway_of_int {n : Int} (hx : x.isFinite = true) (h : value x = n) : roundHalfAway x = x := by
  rcases isFinite_iff.1 hx with ⟨s, hs⟩ | ⟨s, m, e, hm, hs⟩
  · rw [roundHalfAway, hs]
  · have hinteger := hasValue_of_value hs h
    have hround := round_of_value s (canonical_of_parts hs) hinteger
    have hpow : ∀ i, Nat.pow 2 i = 2 ^ i := fun _ => rfl
    simp only [roundHalfAway, hs, hpow]
    split
    · rfl
    · rename_i he
      have hwhole : (2 * m + 2 ^ (-e).toNat) / (2 * 2 ^ (-e).toNat) = n.natAbs := by
        rw [HasValue, show e.toNat = 0 by omega, pow_zero, Nat.mul_one] at hinteger
        have hunit : 0 < 2 ^ (-e).toNat := by positivity
        rw [← hinteger, ← Nat.mul_assoc, ← Nat.succ_mul, Nat.mul_div_mul_right _ _ hunit]
        omega
      rw [hwhole, ofParts, hround, ← hs, ofModel_pack_parts]

private theorem ten_pow_le {q : Nat} (hq : q ≤ Value.placesLimit) : 10 ^ q ≤ 10 ^ 15 :=
  Nat.pow_le_pow_right (by decide) hq

/-- A power of ten among the scales is a double. -/
theorem isFinite_scale {q : Nat} (hq : q ≤ Value.placesLimit) :
    (ofInt (Nat.pow 10 q : Nat)).isFinite = true ∧ value (ofInt (Nat.pow 10 q : Nat)) = 10 ^ q := by
  have hle := ten_pow_le hq
  have hpow : Nat.pow 10 q = 10 ^ q := rfl
  rw [hpow]
  refine ⟨isFinite_ofInt (by omega), ?_⟩
  rw [value_ofInt_of_le (by omega), Int.cast_natCast, Nat.cast_pow, Nat.cast_ofNat]

private theorem lt_of_le_two_pow {x : ℚ} (h : x ≤ 2 ^ (128 : Int)) : x < 2 ^ (1000 : Int) :=
  h.trans_lt (zpow_lt_zpow_right₀ one_lt_two (by decide))

/-- The double to which an integer is scaled up and down again. -/
theorem isNearest_rescaled {n : Int} {q : Nat} (hn : n.natAbs ≤ 2 ^ 64) (hq : q ≤ Value.placesLimit) :
    let scale := ofInt (Nat.pow 10 q : Nat)
    IsNearest (roundHalfAway (ofInt n * scale) / scale) (nearest (nearest n * 10 ^ q) / 10 ^ q) := by
  obtain ⟨hscale, hvalue⟩ := isFinite_scale hq
  have hone : (1 : ℚ) ≤ 10 ^ q := one_le_pow₀ (by norm_num)
  have hpos : (0 : ℚ) < 10 ^ q := zero_lt_one.trans_le hone
  have hten : (10 : ℚ) ^ q ≤ 10 ^ 15 := by exact_mod_cast ten_pow_le hq
  have hsize : |(n : ℚ)| ≤ 2 ^ 64 := by
    rw [← Int.cast_abs, ← Nat.cast_natAbs]
    exact_mod_cast hn
  have hx := isNearest_ofInt hn
  obtain ⟨i, hi⟩ := exists_int_nearest n
  have hproduct : |nearest n * 10 ^ q| ≤ 2 ^ 66 * 10 ^ 15 := by
    rw [abs_mul, abs_of_pos hpos]
    have hnearest := abs_nearest_le n
    have hbound : |nearest n| ≤ 2 ^ 66 := by linarith
    gcongr
  have hy : IsNearest (ofInt n * ofInt (Nat.pow 10 q : Nat)) (nearest n * 10 ^ q) := by
    rw [← hvalue, ← hx.value]
    refine isNearest_mul hx.finite hscale ?_
    rw [hx.value, hvalue]
    exact lt_of_le_two_pow (hproduct.trans (by norm_num))
  -- the product is rounded to an integer already
  obtain ⟨j, hj⟩ : ∃ j : Int, nearest (nearest n * 10 ^ q) = j := by
    rw [hi]
    exact_mod_cast exists_int_nearest (i * 10 ^ q)
  intro scale
  rw [roundHalfAway_of_int hy.finite (hy.value.trans hj), ← hy.value, ← hvalue]
  refine isNearest_div hy.finite hscale ?_ ?_ ?_
  · rw [hvalue]
    exact hpos.ne'
  · intro hne
    rw [hy.value, hj, Int.cast_ne_zero] at hne
    rw [hy.value, hj, hvalue, abs_div, abs_of_pos hpos]
    have habs : (1 : ℚ) ≤ |(j : ℚ)| := by exact_mod_cast Int.one_le_abs hne
    calc (2 : ℚ) ^ (-1000 : Int) ≤ 2 ^ (-128 : Int) := zpow_le_zpow_right₀ one_le_two (by decide)
      _ ≤ 1 / 10 ^ 15 := by norm_num
      _ ≤ |(j : ℚ)| / 10 ^ q := by gcongr
  · rw [hy.value, hvalue, abs_div, abs_of_pos hpos]
    have hnearest := abs_nearest_le (nearest n * 10 ^ q)
    refine lt_of_le_two_pow ?_
    calc |nearest (nearest n * 10 ^ q)| / 10 ^ q ≤ |nearest (nearest n * 10 ^ q)| := div_le_self (abs_nonneg _) hone
      _ ≤ 2 * (2 ^ 66 * 10 ^ 15) + 1 := by linarith
      _ ≤ 2 ^ (128 : Int) := by norm_num

theorem nearest_of_abs_le {n : Int} (hn : |(n : ℚ)| ≤ 2 ^ 53) : nearest n = n := by
  have hsize : n.natAbs ≤ 2 ^ 53 := by
    rw [← Int.cast_abs, ← Nat.cast_natAbs] at hn
    exact_mod_cast hn
  have h := nearest_mul_two_pow hsize 0
  rwa [pow_zero, mul_one] at h

end Binary64

namespace Value

open Binary64

variable {places : UInt32} {n : Int} {hrange : -9223372036854775808 ≤ n ∧ n ≤ 18446744073709551615}

/-- What an integer is rounded to. -/
theorem exists_roundTo_int (places : UInt32) (hrange : -9223372036854775808 ≤ n ∧ n ≤ 18446744073709551615) :
    ∃ m : Number, (number (.int n hrange)).roundTo places = .number m ∧
      m.value = nearest (nearest (nearest n * 10 ^ min places.toNat placesLimit) / 10 ^ min places.toNat placesLimit) ∧
      (m.isInt = true ↔ (∃ i : Int, m.value = i) ∧ |m.value| ≤ 2 ^ 53) := by
  have hz := isNearest_rescaled (n := n) (by omega) (Nat.min_le_right places.toNat placesLimit)
  obtain ⟨m, hm, hvalue, hkind⟩ := exists_ofFloat? hz.finite
  refine ⟨m, congrArg (Option.getD · _) hm, hvalue.trans hz.value, ?_⟩
  rw [hkind, IsSmallInt, hvalue]

/-- An integer is rounded to itself exactly if it is at most two to the power of 53 in size and scaling it up and down in
doubles leads back to it. -/
theorem roundTo_int_eq_self_iff :
    (number (.int n hrange)).roundTo places = .number (.int n hrange) ↔
      |(n : ℚ)| ≤ 2 ^ 53 ∧
        nearest (nearest (n * 10 ^ min places.toNat placesLimit) / 10 ^ min places.toNat placesLimit) = n := by
  obtain ⟨m, hm, hvalue, hkind⟩ := exists_roundTo_int places hrange
  rw [hm, number.injEq]
  constructor
  · rintro rfl
    obtain ⟨-, hle⟩ := hkind.1 rfl
    have hle : |(n : ℚ)| ≤ 2 ^ 53 := hle
    rw [nearest_of_abs_le hle] at hvalue
    exact ⟨hle, hvalue.symm⟩
  · rintro ⟨hle, hback⟩
    rw [nearest_of_abs_le hle, hback] at hvalue
    have hint : m.isInt = true := hkind.2 ⟨⟨n, hvalue⟩, hvalue ▸ hle⟩
    exact Number.eq_of_value_eq hint hvalue (Or.inl hint)

/-- An integer is rounded to itself if scaling it up is exact. -/
theorem roundTo_int_of_le (h : |(n : ℚ)| * 5 ^ min places.toNat placesLimit ≤ 2 ^ 53) :
    (number (.int n hrange)).roundTo places = .number (.int n hrange) := by
  rw [roundTo_int_eq_self_iff]
  generalize min places.toNat placesLimit = q at h
  have hone : (1 : ℚ) ≤ 5 ^ q := one_le_pow₀ (by norm_num)
  have hten : (10 : ℚ) ^ q ≠ 0 := pow_ne_zero q (by norm_num)
  have hle : |(n : ℚ)| ≤ 2 ^ 53 := (le_mul_of_one_le_right (abs_nonneg _) hone).trans h
  have hsize : (n * 5 ^ q : Int).natAbs ≤ 2 ^ 53 := by
    have hcast : (((n * 5 ^ q : Int).natAbs : Nat) : ℚ) = |(n : ℚ)| * 5 ^ q := by
      rw [Nat.cast_natAbs, abs_mul, Int.cast_mul, Int.cast_abs, abs_of_pos (show (0 : Int) < 5 ^ q by positivity)]
      norm_num
    rw [← hcast] at h
    exact_mod_cast h
  have hscaled : (n * 10 ^ q : ℚ) = (n * 5 ^ q : Int) * 2 ^ q := by
    rw [Int.cast_mul, Int.cast_pow, Int.cast_ofNat, mul_assoc, ← mul_pow]
    norm_num
  refine ⟨hle, ?_⟩
  rw [hscaled, nearest_mul_two_pow hsize, ← hscaled, mul_div_cancel_right₀ _ hten, nearest_of_abs_le hle]

end Value

/-! ### Tables -/

namespace Cell

variable {c : Cell} {t : Table} {probe v : Value}

/-- A cell with a table comes to what is found in it, rounded. -/
theorem outcome_of_get? (hrule : c.rule = .lookup t) (hget : t.get? probe = some v) (args : List (Option Value)) :
    c.outcome (some probe :: args) = ⟨none, some (c.rounded v)⟩ := by
  have hentries : t.isEmpty = false := by
    rcases t with ⟨_ | ⟨e, es⟩⟩
    · nomatch hget
    · rfl
  have hcompile : c.rule.compile c.inputs.length = .ok (.lookup t) := by
    rw [hrule, Rule.compile, hentries]
    rfl
  simp only [outcome, hcompile, Program.run, hget, Option.map_some, Option.some_or]

/-- What a cell with a table comes to with a precision in place of its own. -/
theorem evaluate_setPrecision {l : Ledger} (places : Option UInt32) (hrule : c.rule = .lookup t)
    (hprobe : c.inputs.head?.bind l.value? = some probe) (hget : t.get? probe = some v) :
    ((c.setPrecision places).evaluate l).1 = ⟨none, some ((c.setPrecision places).rounded v)⟩ := by
  obtain ⟨a, hhead, ha⟩ := Option.bind_eq_some_iff.1 hprobe
  obtain ⟨inputs, hinputs⟩ := List.head?_eq_some_iff.1 hhead
  have hcurrent : (c.setPrecision places).UpToDate := upToDate_of_stale rfl
  have hargs : (c.setPrecision places).inputs.map l.value? = some probe :: inputs.map l.value? := by
    show c.inputs.map l.value? = _
    rw [hinputs, List.map_cons, ha]
  rw [hcurrent.fst_evaluate, hargs]
  exact outcome_of_get? (c := c.setPrecision places) hrule hget _

end Cell

open Binary64 in
/-- An integer is rounded to itself exactly if it is at most two to the power of 53 in size and scaling it up and down in
doubles leads back to it, which it does if scaling it up is exact.  A precision makes of an integer that a cell finds in
its table what the integer is rounded to. -/
theorem Value.roundTo_int_exact (places : UInt32) (n : Int)
    (hrange : -9223372036854775808 ≤ n ∧ n ≤ 18446744073709551615) :
    let v : Value := .number (.int n hrange)
    let q := min places.toNat placesLimit
    (v.roundTo places = v ↔ |(n : ℚ)| ≤ 2 ^ 53 ∧ nearest (nearest (n * 10 ^ q) / 10 ^ q) = n) ∧
    (|(n : ℚ)| * 5 ^ q ≤ 2 ^ 53 → v.roundTo places = v) ∧
    ∀ (c : Cell) (l : Ledger) (t : Table) (probe : Value), c.rule = .lookup t →
      c.inputs.head?.bind l.value? = some probe → t.get? probe = some v →
      ((c.setPrecision none).evaluate l).1 = ⟨none, some v⟩ ∧
        ((c.setPrecision (some places)).evaluate l).1 = ⟨none, some (v.roundTo places)⟩ :=
  ⟨roundTo_int_eq_self_iff, roundTo_int_of_le, fun _ _ _ _ hrule hprobe hget =>
    ⟨Cell.evaluate_setPrecision none hrule hprobe hget, Cell.evaluate_setPrecision (some places) hrule hprobe hget⟩⟩

/-- The largest integer that can be scaled up exactly for one place, as it is and out of a table. -/
theorem Value.roundTo_int_of_limit :
    let v : Value := .number (.int 1801439850948198 (by decide))
    let c := ((Cell.bare ⟨1⟩ "rate").addInput ⟨2⟩).setEntry (.bool true) v
    let l : Ledger := ⟨[⟨2⟩], [⟨none, some (.bool true)⟩]⟩
    v.roundTo 1 = v ∧ ((c.setPrecision (some 1)).evaluate l).1 = ⟨none, some v⟩ := by
  intro v c l
  obtain ⟨-, hexact, htable⟩ := roundTo_int_exact 1 1801439850948198 (by decide)
  have hround : v.roundTo 1 = v := by
    refine hexact ?_
    show |((1801439850948198 : Int) : ℚ)| * 5 ^ 1 ≤ 2 ^ 53
    norm_num
  refine ⟨hround, ?_⟩
  have hdelivered := (htable c l _ (.bool true) rfl rfl rfl).2
  exact hdelivered.trans (congrArg (Outcome.mk none ∘ some) hround)

open Binary64 in
/-- The integer after two to the power of 53 is rounded to that one, and a small integer is no integer any more when it is
rounded to fifteen places. -/
theorem Value.roundTo_int_ne_beyond_limit :
    let odd : Value := .number (.int 9007199254740993 (by decide))
    let small : Value := .number (.int 295149 (by decide))
    odd.roundTo 0 = .number (.int 9007199254740992 (by decide)) ∧ odd.roundTo 0 ≠ odd ∧ small.roundTo 15 ≠ small := by
  have hodd : toInt? (roundHalfAway (ofInt 9007199254740993 * ofInt (Nat.pow 10 0 : Nat)) / ofInt (Nat.pow 10 0 : Nat)) =
      some 9007199254740992 := by decide
  have hsmall : toInt? (roundHalfAway (ofInt 295149 * ofInt (Nat.pow 10 15 : Nat)) / ofInt (Nat.pow 10 15 : Nat)) =
      none := by decide
  have hfinite := (isNearest_rescaled (n := 295149) (q := 15) (by decide) (by decide)).finite
  intro odd small
  have hround : odd.roundTo 0 = .number (.int 9007199254740992 (by decide)) :=
    congrArg (Option.getD · odd) (ofFloat?_of_toInt? hodd (by decide) (by decide))
  have hfloat : small.roundTo 15 = .number (.float _ hfinite) := by
    have hnone := ofFloat?_of_no_exactInt fun n hn => absurd (hsmall.symm.trans hn) (Option.some_ne_none n).symm
    rw [Number.ofFloat?, dif_pos hfinite, Option.map_some] at hnone
    exact congrArg (Option.getD · small) hnone
  rw [hfloat]
  refine ⟨hround, ?_, ?_⟩
  · rw [hround]
    intro hsame
    exact absurd (Number.int.inj (Value.number.inj hsame)) (by decide)
  · intro hsame
    cases Value.number.inj hsame

end CellGraph
