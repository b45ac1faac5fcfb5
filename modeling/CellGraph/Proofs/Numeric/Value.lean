import CellGraph.Proofs.Numeric.Exact

/-!
# The number that a double denotes

A finite double denotes a rational number (`value`).  Its mantissa and its exponent are determined by that number
(`Canonical.unique`), so two finite doubles are equal exactly if they denote the same one (`beq_iff_value_eq`).  An
integer that a double denotes is denoted by its nearest double (`value_ofInt`).
-/

namespace CellGraph.Binary64

open Float.Model (UnpackedFloat)
open Float.Model.UnpackedFloat

/-- The number that a finite double denotes.  An infinity and what is not a number have zero here. -/
def value (x : Float) : ℚ :=
  match parts x with
  | .finite s m e _ => s.apply m * 2 ^ e
  | _ => 0

variable {x y : Float}

theorem value_of_zero {s : Sign} (h : parts x = .zero s) : value x = 0 := by rw [value, h]

theorem value_of_finite {s : Sign} {m : Nat} {e : Int} {hm : 0 < m} (h : parts x = .finite s m e hm) :
    value x = s.apply m * 2 ^ e := by rw [value, h]

/-! ### Parts and the number -/

/-- The parts with the larger exponent have the smaller mantissa. -/
theorem eq_mul_two_pow {m n : Nat} {e f : Int} (hle : e ≤ f) (h : (m : ℚ) * 2 ^ e = n * 2 ^ f) :
    m = n * 2 ^ (f - e).toNat := by
  have hpow : (2 : ℚ) ^ f = 2 ^ (f - e).toNat * 2 ^ e := by
    rw [← zpow_natCast, ← zpow_add₀ two_ne_zero]
    congr 1
    omega
  have hunit : (2 : ℚ) ^ e ≠ 0 := zpow_ne_zero e two_ne_zero
  rw [hpow, ← mul_assoc] at h
  exact_mod_cast mul_right_cancel₀ hunit h

/-- A positive number has one mantissa and one exponent. -/
theorem Canonical.unique {m n : Nat} {e f : Int} (hm : Canonical m e) (hn : Canonical n f)
    (h : (m : ℚ) * 2 ^ e = n * 2 ^ f) : m = n ∧ e = f := by
  wlog hle : e ≤ f generalizing m n e f with hother
  · obtain ⟨hmn, hef⟩ := hother hn hm h.symm (by omega)
    exact ⟨hmn.symm, hef.symm⟩
  have heq := eq_mul_two_pow hle h
  have hlog : m.log2 = n.log2 + (f - e).toNat := by rw [heq, log2_mul_two_pow hn.pos]
  have hexponent : e = f := by
    obtain ⟨-, -, hm⟩ := canonical_iff.1 hm
    obtain ⟨-, -, hn⟩ := canonical_iff.1 hn
    omega
  subst hexponent
  simpa using heq

/-- Parts stand for a positive number if the sign is positive, and for a negative one if it is negative. -/
private theorem sign_cases (s : Sign) {m : Nat} (hm : 0 < m) (e : Int) :
    s = .positive ∧ 0 < (s.apply m * 2 ^ e : ℚ) ∨ s = .negative ∧ (s.apply m * 2 ^ e : ℚ) < 0 := by
  have hpos : 0 < (m : ℚ) * 2 ^ e := by positivity
  cases s with
  | positive => exact Or.inl ⟨rfl, by simpa [Sign.apply] using hpos⟩
  | negative => exact Or.inr ⟨rfl, by simpa [Sign.apply] using hpos⟩

private theorem finite_eq_iff (s t : Sign) {m n : Nat} {e f : Int} (hm : Canonical m e) (hn : Canonical n f) :
    UnpackedFloat.finite s m e hm.pos = .finite t n f hn.pos ↔ (s.apply m * 2 ^ e : ℚ) = t.apply n * 2 ^ f := by
  constructor
  · intro h
    obtain ⟨rfl, rfl, rfl⟩ := UnpackedFloat.finite.inj h
    rfl
  · intro h
    have hst : s = t := by
      rcases sign_cases s hm.pos e with ⟨rfl, hs⟩ | ⟨rfl, hs⟩ <;>
        rcases sign_cases t hn.pos f with ⟨rfl, ht⟩ | ⟨rfl, ht⟩
      · rfl
      · linarith
      · linarith
      · rfl
    subst hst
    have hsize : (m : ℚ) * 2 ^ e = n * 2 ^ f := by
      cases s with
      | positive => simpa [Sign.apply] using h
      | negative => simpa [Sign.apply] using h
    obtain ⟨rfl, rfl⟩ := hm.unique hn hsize
    rfl

theorem value_ne_zero {s : Sign} {m : Nat} {e : Int} {hm : 0 < m} (h : parts x = .finite s m e hm) : value x ≠ 0 := by
  rw [value_of_finite h]
  rcases sign_cases s hm e with ⟨-, h⟩ | ⟨-, h⟩
  · exact h.ne'
  · exact h.ne

/-- Finite doubles are equal exactly if they denote the same number. -/
theorem beq_iff_value_eq (hx : x.isFinite = true) (hy : y.isFinite = true) : (x == y) = true ↔ value x = value y := by
  show (parts x).beq (parts y) = true ↔ _
  rw [beq_iff_ne_notANumber_and_eq]
  rcases isFinite_iff.1 hx with ⟨s, hs⟩ | ⟨s, m, e, hm, hs⟩ <;>
    rcases isFinite_iff.1 hy with ⟨t, ht⟩ | ⟨t, n, f, hn, ht⟩
  · rw [value_of_zero hs, value_of_zero ht, hs, ht]
    cases s <;> cases t <;> simp
  · have hne := (value_ne_zero ht).symm
    rw [value_of_zero hs, hs, ht]
    simp [hne]
  · have hne := value_ne_zero hs
    rw [value_of_zero ht, hs, ht]
    simp [hne]
  · rw [value_of_finite hs, value_of_finite ht, ← finite_eq_iff s t (canonical_of_parts hs) (canonical_of_parts ht), hs,
      ht]
    simp

/-- Finite doubles that denote the same number are the same, unless the number is zero. -/
theorem eq_of_value_eq (hx : x.isFinite = true) (hy : y.isFinite = true) (hne : value x ≠ 0) (h : value x = value y) :
    x = y := by
  rcases isFinite_iff.1 hx with ⟨s, hs⟩ | ⟨s, m, e, hm, hs⟩
  · exact absurd (value_of_zero hs) hne
  · rcases isFinite_iff.1 hy with ⟨t, ht⟩ | ⟨t, n, f, hn, ht⟩
    · exact absurd (h.trans (value_of_zero ht)) hne
    · have hparts : parts x = parts y := by
        rw [value_of_finite hs, value_of_finite ht] at h
        rw [hs, ht]
        exact (finite_eq_iff s t (canonical_of_parts hs) (canonical_of_parts ht)).2 h
      rw [← ofModel_pack_parts x, hparts, ofModel_pack_parts]

/-! ### Integers -/

theorem hasValue_iff {n m : Nat} {e : Int} : HasValue n m e ↔ (n : ℚ) = m * 2 ^ e := by
  have hpow : (2 : ℚ) ^ e = 2 ^ e.toNat / 2 ^ (-e).toNat := by
    rw [← zpow_natCast, ← zpow_natCast, ← zpow_sub₀ two_ne_zero]
    congr 1
    omega
  have hunit : (2 : ℚ) ^ (-e).toNat ≠ 0 := pow_ne_zero _ two_ne_zero
  rw [hpow, ← mul_div_assoc, eq_div_iff hunit, HasValue]
  exact_mod_cast Iff.rfl

/-- An integer with the value of canonical parts is denoted by its nearest double. -/
private theorem value_ofInt_of_hasValue {n : Int} {m : Nat} {e : Int} (hm : Canonical m e)
    (h : HasValue n.natAbs m e) : value (ofInt n) = n := by
  have hpos := h.pos hm.pos
  have hsize := hasValue_iff.1 h
  show value (Float.ofModel (.pack (.normalize .binary64 n 0 .positive))) = n
  rw [UnpackedFloat.normalize]
  split
  · rename_i hneg
    rw [Int.compare_eq_lt] at hneg
    have hcast : (n : ℚ) = -(n.natAbs : ℚ) := by
      rw [Nat.cast_natAbs, abs_of_neg hneg, Int.cast_neg, neg_neg]
    rw [show (-n).toNat = n.natAbs by omega, round_of_value .negative hm h,
      value_of_finite (parts_pack_finite .negative hm), hcast, hsize]
    simp [Sign.apply]
  · rename_i hzero
    rw [Int.compare_eq_eq] at hzero
    omega
  · rename_i hgt
    rw [Int.compare_eq_gt] at hgt
    have hcast : (n : ℚ) = n.natAbs := by rw [Nat.cast_natAbs, abs_of_pos hgt]
    rw [show n.toNat = n.natAbs by omega, round_of_value .positive hm h,
      value_of_finite (parts_pack_finite .positive hm), hcast, hsize]
    simp [Sign.apply]

private theorem value_eq_iff_hasValue (s : Sign) {m k : Nat} {e : Int} :
    (s.apply m * 2 ^ e : ℚ) = (s.apply k : Int) ↔ HasValue k m e := by
  rw [hasValue_iff, eq_comm]
  cases s <;> simp [Sign.apply]

/-- The parts of a double that denotes an integer. -/
theorem hasValue_of_value {s : Sign} {m : Nat} {e n : Int} {hm : 0 < m} (hs : parts x = .finite s m e hm)
    (h : value x = n) : HasValue n.natAbs m e := by
  rw [value_of_finite hs] at h
  rw [hasValue_iff, Nat.cast_natAbs, Int.cast_abs, ← h]
  cases s <;> simp [Sign.apply]

/-- The integer that a finite double gives is the number that it denotes. -/
theorem toInt?_eq_some_iff {n : Int} (hx : x.isFinite = true) : toInt? x = some n ↔ value x = n := by
  rcases isFinite_iff.1 hx with ⟨s, hs⟩ | ⟨s, m, e, hm, hs⟩
  · rw [value_of_zero hs, toInt?, hs, Option.some.injEq]
    exact_mod_cast Iff.rfl
  · constructor
    · intro h
      have hpow : ∀ i, Nat.pow 2 i = 2 ^ i := fun _ => rfl
      simp only [toInt?, hs, hpow] at h
      rw [value_of_finite hs]
      split at h
      · rename_i he
        obtain rfl := Option.some.inj h
        refine (value_eq_iff_hasValue s).2 ?_
        rw [HasValue, show (-e).toNat = 0 by omega, pow_zero, Nat.mul_one]
      · rename_i he
        split at h
        · rename_i hdvd
          obtain rfl := Option.some.inj h
          refine (value_eq_iff_hasValue s).2 ?_
          rw [HasValue, Nat.div_mul_cancel (Nat.dvd_of_mod_eq_zero hdvd), show e.toNat = 0 by omega, pow_zero,
            Nat.mul_one]
        · exact absurd h.symm (Option.some_ne_none n)
    · intro h
      have hsign : s.apply n.natAbs = n := by
        rw [value_of_finite hs] at h
        rcases sign_cases s hm e with ⟨rfl, hpos⟩ | ⟨rfl, hneg⟩
        · rw [h, Int.cast_pos] at hpos
          exact Int.natAbs_of_nonneg hpos.le
        · rw [h, Int.cast_lt_zero] at hneg
          rw [Sign.apply]
          omega
      rw [toInt?_of_value hs (hasValue_of_value hs h), hsign]

private theorem value_ofInt_zero : value (ofInt 0) = 0 := value_of_zero (parts_pack_zero .positive)

/-- An integer that a double denotes is denoted by its nearest double. -/
theorem value_ofInt {n : Int} (hx : x.isFinite = true) (h : value x = n) : value (ofInt n) = n := by
  rcases isFinite_iff.1 hx with ⟨s, hs⟩ | ⟨s, m, e, hm, hs⟩
  · rw [value_of_zero hs] at h
    obtain rfl : n = 0 := by exact_mod_cast h.symm
    exact_mod_cast value_ofInt_zero
  · exact value_ofInt_of_hasValue (canonical_of_parts hs) (hasValue_of_value hs h)

/-- An integer of at most 53 bits, or the one after these, is denoted by its nearest double. -/
theorem value_ofInt_of_le {n : Int} (hn : n.natAbs ≤ 2 ^ 53) : value (ofInt n) = n := by
  rcases Nat.eq_zero_or_pos n.natAbs with hzero | hpos
  · obtain rfl := Int.natAbs_eq_zero.1 hzero
    exact_mod_cast value_ofInt_zero
  · obtain ⟨m, e, hm, hvalue⟩ := exists_canonical hpos hn
    exact value_ofInt_of_hasValue hm hvalue

end CellGraph.Binary64
