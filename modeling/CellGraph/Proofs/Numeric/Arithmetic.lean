import CellGraph.Proofs.Numeric.Nearest

/-!
# Operations that give the nearest double

The operations on doubles work on integers and keep of what they shift out the first bit and whether there are more.
These two bits tell as much of a number as rounding asks for (`Represents`), so rounding gives the nearest double
(`isNearest_round`), and with it do the conversion of an integer, multiplication and division.
-/

namespace CellGraph.Binary64

open Float.Model (Format UnpackedFloat totalExponent)
open Float.Model.UnpackedFloat

/-! ### What is shifted out -/

/-- The mantissa is the integral part of a number, the round bit is the bit after it, and the sticky bit says whether
there are more. -/
def Represents (em : ExtendedMantissa) (r : ℚ) : Prop :=
  match em.roundBit, em.stickyBit with
  | false, false => r = em.mantissa
  | false, true => em.mantissa < r ∧ r < em.mantissa + 1 / 2
  | true, false => r = em.mantissa + 1 / 2
  | true, true => em.mantissa + 1 / 2 < r ∧ r < em.mantissa + 1

section Represents

variable {em : ExtendedMantissa} {r : ℚ}

/-- Without a bit after it the mantissa is the number. -/
theorem Represents.eq_mantissa (h : Represents em r) (hbits : (em.roundBit || em.stickyBit) = false) :
    r = em.mantissa := by
  obtain ⟨m, round, sticky⟩ := em
  obtain ⟨rfl, rfl⟩ : round = false ∧ sticky = false := Bool.or_eq_false_iff.1 hbits
  exact h

/-- With a bit after it the mantissa is less than the number. -/
theorem Represents.mantissa_lt (h : Represents em r) (hbits : (em.roundBit || em.stickyBit) = true) :
    (em.mantissa : ℚ) < r ∧ r < em.mantissa + 1 := by
  obtain ⟨m, round, sticky⟩ := em
  cases round with
  | false =>
    obtain rfl : sticky = true := hbits
    obtain ⟨hlow, hhigh⟩ : (m : ℚ) < r ∧ r < m + 1 / 2 := h
    exact ⟨hlow, hhigh.trans (by norm_num)⟩
  | true =>
    cases sticky with
    | false =>
      obtain rfl : r = m + 1 / 2 := h
      exact ⟨by norm_num, by norm_num⟩
    | true =>
      obtain ⟨hlow, hhigh⟩ : (m + 1 / 2 : ℚ) < r ∧ r < m + 1 := h
      exact ⟨lt_trans (by norm_num) hlow, hhigh⟩

theorem Represents.bounds (h : Represents em r) : (em.mantissa : ℚ) ≤ r ∧ r < em.mantissa + 1 := by
  rcases hbits : em.roundBit || em.stickyBit
  · rw [h.eq_mantissa hbits]
    exact ⟨le_rfl, lt_add_one _⟩
  · obtain ⟨hlow, hhigh⟩ := h.mantissa_lt hbits
    exact ⟨hlow.le, hhigh⟩

theorem Represents.floor_eq (h : Represents em r) : ⌊r⌋ = em.mantissa := by
  rw [Int.floor_eq_iff]
  exact_mod_cast h.bounds

/-- The two bits tell how to round. -/
theorem Represents.roundedMantissa_eq (h : Represents em r) : (em.roundedMantissa : Int) = roundEven r := by
  have hfloor := h.floor_eq
  obtain ⟨m, round, sticky⟩ := em
  rw [roundEven, hfloor, Int.cast_natCast]
  cases round with
  | false =>
    cases sticky with
    | false =>
      obtain rfl : r = m := h
      rw [if_pos (by norm_num)]
      rfl
    | true =>
      obtain ⟨hlow, hhigh⟩ : (m : ℚ) < r ∧ r < m + 1 / 2 := h
      rw [if_pos (by linarith)]
      rfl
  | true =>
    cases sticky with
    | false =>
      obtain rfl : r = m + 1 / 2 := h
      rw [if_neg (by linarith), if_neg (by linarith)]
      rfl
    | true =>
      obtain ⟨hlow, hhigh⟩ : (m + 1 / 2 : ℚ) < r ∧ r < m + 1 := h
      rw [if_neg (by linarith), if_pos (by linarith)]
      rfl

/-- A bit that is shifted out becomes the round bit, and the bits after it count as more. -/
theorem Represents.shiftRightOne (h : Represents em r) : Represents em.shiftRightOne (r / 2) := by
  have hsplit : (em.mantissa : ℚ) = (em.mantissa / 2 : Nat) * 2 + (em.mantissa % 2 : Nat) := by
    exact_mod_cast (Nat.div_add_mod' em.mantissa 2).symm
  rw [ExtendedMantissa.shiftRightOne, Represents]
  rcases Nat.mod_two_eq_zero_or_one em.mantissa with hbit | hbit
  · rw [hbit, Nat.cast_zero, add_zero] at hsplit
    rw [hbit]
    rcases hbits : em.roundBit || em.stickyBit
    · show r / 2 = ((em.mantissa / 2 : Nat) : ℚ)
      linarith [h.eq_mantissa hbits]
    · obtain ⟨hlow, hhigh⟩ := h.mantissa_lt hbits
      show ((em.mantissa / 2 : Nat) : ℚ) < r / 2 ∧ r / 2 < (em.mantissa / 2 : Nat) + 1 / 2
      constructor
      · linarith
      · linarith
  · rw [hbit, Nat.cast_one] at hsplit
    rw [hbit]
    rcases hbits : em.roundBit || em.stickyBit
    · show r / 2 = ((em.mantissa / 2 : Nat) : ℚ) + 1 / 2
      linarith [h.eq_mantissa hbits]
    · obtain ⟨hlow, hhigh⟩ := h.mantissa_lt hbits
      show ((em.mantissa / 2 : Nat) : ℚ) + 1 / 2 < r / 2 ∧ r / 2 < (em.mantissa / 2 : Nat) + 1
      constructor
      · linarith
      · linarith

theorem Represents.shiftRight (h : Represents em r) (k : Nat) : Represents (em >>> k) (r / 2 ^ k) := by
  show Represents (k.repeat ExtendedMantissa.shiftRightOne em) _
  induction k with
  | zero =>
    rw [pow_zero, div_one]
    exact h
  | succ k ih =>
    rw [pow_succ, ← div_div]
    exact ih.shiftRightOne

/-- An integer has no bits after it. -/
theorem represents_exact (m : Nat) : Represents (ExtendedMantissa.ofMantissaAndAccuracy m .exact) m := rfl

/-- What is left over of a division tells the bits after the quotient. -/
theorem represents_fraction (m : Nat) {n : Nat} (hn : 0 < n) :
    Represents (ExtendedMantissa.ofMantissaAndAccuracy (m / n) (accuracyOfFraction (m % n) n)) (m / n : ℚ) := by
  have hden : (0 : ℚ) < n := Nat.cast_pos.2 hn
  have hsplit : (m / n : ℚ) = (m / n : Nat) + (m % n : Nat) / n := by
    rw [div_eq_iff hden.ne', add_mul, div_mul_cancel₀ _ hden.ne']
    exact_mod_cast (Nat.div_add_mod' m n).symm
  have hone : ((m % n : Nat) : ℚ) / n < 1 := by
    rw [div_lt_one hden]
    exact_mod_cast Nat.mod_lt m hn
  rw [hsplit, accuracyOfFraction]
  generalize m / n = quotient
  generalize m % n = rest at hone
  split
  · rename_i hzero
    show (quotient + rest / n : ℚ) = quotient
    rw [hzero, Nat.cast_zero, zero_div, add_zero]
  · rename_i hne
    have hpos : (0 : ℚ) < rest / n := div_pos (Nat.cast_pos.2 (Nat.pos_of_ne_zero hne)) hden
    rcases hcompare : compare (2 * rest) n
    · have hhalf : (rest / n : ℚ) < 1 / 2 := by
        rw [div_lt_div_iff₀ hden two_pos, one_mul, mul_comm]
        exact_mod_cast Nat.compare_eq_lt.1 hcompare
      show (quotient : ℚ) < quotient + rest / n ∧ (quotient + rest / n : ℚ) < quotient + 1 / 2
      constructor
      · linarith
      · linarith
    · have hhalf : (rest / n : ℚ) = 1 / 2 := by
        rw [div_eq_div_iff hden.ne' two_ne_zero, one_mul, mul_comm]
        exact_mod_cast Nat.compare_eq_eq.1 hcompare
      show (quotient + rest / n : ℚ) = quotient + 1 / 2
      rw [hhalf]
    · have hhalf : (1 / 2 : ℚ) < rest / n := by
        rw [div_lt_div_iff₀ two_pos hden, one_mul, mul_comm]
        exact_mod_cast Nat.compare_eq_gt.1 hcompare
      show (quotient + 1 / 2 : ℚ) < quotient + rest / n ∧ (quotient + rest / n : ℚ) < quotient + 1
      constructor
      · linarith
      · linarith

end Represents

/-! ### Rounding -/

/-- A double is finite and the nearest one to a number. -/
structure IsNearest (z : Float) (x : ℚ) : Prop where
  finite : z.isFinite = true
  value : value z = nearest x

theorem isNearest_zero (s : Sign) : IsNearest (.ofModel (.pack (.zero s))) 0 := by
  have hparts := parts_pack_zero s
  refine ⟨isFinite_iff.2 (Or.inl ⟨s, hparts⟩), ?_⟩
  rw [value_of_zero hparts, nearest_zero]

/-- The second shift of rounding, after which a mantissa that has become one bit longer is canonical again. -/
private theorem shift_rounded (s : Sign) {m : Nat} {e : Int} (hm : m ≤ 2 ^ 53) (hfull : 2 ^ 52 ≤ m ∨ e = -1074)
    (hlow : -1074 ≤ e) (hhigh : e < 971) :
    let second := shiftToTargetExponent .binary64 m e .exact
    let z := Float.ofModel (.pack (if h : second.1.mantissa = 0 then .zero s
      else .finite s second.1.mantissa second.2 (Nat.pos_of_ne_zero h)))
    z.isFinite = true ∧ value z = s.apply m * 2 ^ e := by
  rcases Nat.lt_or_eq_of_le hm with hlt | rfl
  · have hbits : m.log2 ≤ 52 := by
      rcases Nat.eq_zero_or_pos m with rfl | hpos
      · decide
      · exact Nat.le_of_lt_succ ((Nat.log2_lt hpos.ne').2 hlt)
    have hshift : shiftToTargetExponent .binary64 m e .exact = (⟨m, false, false⟩, e) := by
      have hamount : (max (m.log2 + e - 52) (-1074) - e).toNat = 0 := by omega
      rw [shiftToTargetExponent, totalExponent, targetExponent_eq, shiftToExponent, hamount]
      exact Prod.ext rfl (Int.add_zero e)
    rw [hshift]
    dsimp only
    split
    · rename_i hzero
      have hparts := parts_pack_zero s
      refine ⟨isFinite_iff.2 (Or.inl ⟨s, hparts⟩), ?_⟩
      rw [value_of_zero hparts, hzero]
      cases s <;> simp [Sign.apply]
    · rename_i hne
      have hlog : m.log2 = 52 ∨ e = -1074 := hfull.imp_left fun h => le_antisymm hbits ((Nat.le_log2 hne).2 h)
      have hcanonical : Canonical m e := canonical_iff.2 ⟨Nat.pos_of_ne_zero hne, by omega, by omega⟩
      have hparts := parts_pack_finite s hcanonical
      exact ⟨isFinite_iff.2 (Or.inr ⟨_, _, _, _, hparts⟩), value_of_finite hparts⟩
  · have hshift : shiftToTargetExponent .binary64 (2 ^ 53) e .exact = (⟨2 ^ 52, false, false⟩, e + 1) := by
      have hamount : (max (((2 ^ 53 : Nat).log2 : Int) + e - 52) (-1074) - e).toNat = 1 := by
        rw [Nat.log2_two_pow]
        omega
      rw [shiftToTargetExponent, totalExponent, targetExponent_eq, shiftToExponent, hamount]
      rfl
    have hcanonical : Canonical (2 ^ 52) (e + 1) := by
      refine canonical_iff.2 ⟨by decide, by omega, Or.inl ⟨Nat.log2_two_pow, by omega⟩⟩
    have hparts := parts_pack_finite s hcanonical
    rw [hshift]
    refine ⟨isFinite_iff.2 (Or.inr ⟨_, _, _, _, hparts⟩), (value_of_finite hparts).trans ?_⟩
    rw [zpow_add₀ two_ne_zero]
    cases s <;> norm_num [Sign.apply] <;> ring

private theorem mantissa_ofMantissaAndAccuracy (m : Nat) (a : Accuracy) :
    (ExtendedMantissa.ofMantissaAndAccuracy m a).mantissa = m := by
  unfold ExtendedMantissa.ofMantissaAndAccuracy
  split <;> rfl

/-- A mantissa after as many shifts as its magnitude asks for. -/
private theorem shifted_bounds {m k : Nat} {r : ℚ} (hm : 0 < m) (hlow : m ≤ r) (hhigh : r < m + 1) :
    (m.log2 ≤ 52 + k → r / 2 ^ k < (2 ^ 53 : Int)) ∧ (m.log2 = 52 + k → ((2 ^ 52 : Int) : ℚ) ≤ r / 2 ^ k) := by
  have hpow : (0 : ℚ) < 2 ^ k := by positivity
  constructor
  · intro hlog
    rw [div_lt_iff₀ hpow]
    have hsize : m + 1 ≤ 2 ^ 53 * 2 ^ k := by
      rw [← pow_add]
      exact Nat.lt_log2_self.trans_le (Nat.pow_le_pow_right (by decide) (by omega))
    exact hhigh.trans_le (by exact_mod_cast hsize)
  · intro hlog
    rw [le_div_iff₀ hpow]
    have hsize : 2 ^ 52 * 2 ^ k ≤ m := by
      rw [← pow_add, ← hlog]
      exact Nat.log2_self_le hm.ne'
    exact le_trans (by exact_mod_cast hsize) hlow

/-- Rounding gives the nearest double, if there are enough bits to begin with and the number is not too large. -/
theorem isNearest_round (s : Sign) {m : Nat} {e : Int} {a : Accuracy} {r : ℚ}
    (hr : Represents (ExtendedMantissa.ofMantissaAndAccuracy m a) r) (hm : 0 < m)
    (hfine : e ≤ max (m.log2 + e - 52) (-1074)) (hlt : r * 2 ^ e < 2 ^ (1000 : Int)) :
    IsNearest (.ofModel (.pack (.roundWithAccuracy .binary64 s m e a))) (s.apply 1 * (r * 2 ^ e)) := by
  have hbounds := hr.bounds
  rw [mantissa_ofMantissaAndAccuracy] at hbounds
  obtain ⟨hlow, hhigh⟩ := hbounds
  have hunit := unitExponent_eq (e := e) hm hlow hhigh
  have hlog : (m.log2 : Int) + e < 1000 := by
    have hpos : 0 < r * 2 ^ e := mul_pos (lt_of_lt_of_le (Nat.cast_pos.2 hm) hlow) (zpow_pos two_pos e)
    rw [← log_abs_eq hm hlow hhigh, abs_of_pos hpos, ← Int.lt_zpow_iff_log_lt one_lt_two hpos]
    exact hlt
  generalize ht : max ((m.log2 : Int) + e - 52) (-1074) = t at hfine hunit
  obtain ⟨k, hk⟩ : ∃ k : Nat, t = e + k := ⟨(t - e).toNat, by omega⟩
  have hfirst : shiftToTargetExponent .binary64 m e a = (ExtendedMantissa.ofMantissaAndAccuracy m a >>> k, t) := by
    have hamount : (t - e).toNat = k := by omega
    rw [shiftToTargetExponent, totalExponent, targetExponent_eq, ht, shiftToExponent, hamount, ← hk]
  have hmantissa := (hr.shiftRight k).roundedMantissa_eq
  obtain ⟨hupper, hlower⟩ := shifted_bounds (k := k) hm hlow hhigh
  rw [UnpackedFloat.roundWithAccuracy, hfirst]
  dsimp only
  generalize (ExtendedMantissa.ofMantissaAndAccuracy m a >>> k).roundedMantissa = rounded at hmantissa
  have hle : rounded ≤ 2 ^ 53 := by
    have h := roundEven_le (hupper (by omega))
    omega
  have hfull : 2 ^ 52 ≤ rounded ∨ t = -1074 := by
    rcases eq_or_ne t (-1074) with heq | hne
    · exact Or.inr heq
    · have h := le_roundEven (hlower (by omega))
      omega
  obtain ⟨hfinite, hvalue⟩ := shift_rounded s hle hfull (by omega) (by omega)
  refine ⟨hfinite, hvalue.trans ?_⟩
  have hquotient : r * 2 ^ e / 2 ^ t = r / 2 ^ k := by
    rw [hk, zpow_add₀ two_ne_zero, zpow_natCast, mul_comm r, mul_div_mul_left _ _ (zpow_ne_zero e two_ne_zero)]
  rw [nearest_apply, nearest, hunit, hquotient, ← hmantissa]
  cases s <;> simp [Sign.apply]

/-! ### Operations -/

/-- A positive integer is rounded to the nearest double. -/
private theorem isNearest_round_natCast (s : Sign) {n : Nat} (hn : 0 < n) (hle : n ≤ 2 ^ 64) :
    IsNearest (.ofModel (.pack (.round .binary64 s n 0))) (s.apply 1 * n) := by
  rw [UnpackedFloat.round, decreaseExponent, totalExponent, targetExponent_eq]
  generalize hk : (0 - max ((n.log2 : Int) + 0 - 52) (-1074)).toNat = k
  have hpos : 0 < n <<< k := by
    rw [Nat.shiftLeft_eq]
    positivity
  have hvalue : ((n <<< k : Nat) * 2 ^ (0 - (k : Int)) : ℚ) = n := by
    rw [Nat.shiftLeft_eq, zero_sub, zpow_neg, zpow_natCast, Nat.cast_mul, Nat.cast_pow, Nat.cast_ofNat]
    exact mul_inv_cancel_right₀ (pow_ne_zero k two_ne_zero) _
  have hlog : (n <<< k).log2 = n.log2 + k := by rw [Nat.shiftLeft_eq, log2_mul_two_pow hn]
  have h := isNearest_round (e := 0 - (k : Int)) s (represents_exact (n <<< k)) hpos (by omega) ?_
  · rw [hvalue] at h
    exact h
  · rw [hvalue]
    calc (n : ℚ) ≤ 2 ^ (64 : Int) := by exact_mod_cast hle
      _ < 2 ^ (1000 : Int) := zpow_lt_zpow_right₀ one_lt_two (by decide)

/-- An integer that fits in 64 bits is converted to the nearest double. -/
theorem isNearest_ofInt {n : Int} (hn : n.natAbs ≤ 2 ^ 64) : IsNearest (ofInt n) n := by
  show IsNearest (Float.ofModel (.pack (.normalize .binary64 n 0 .positive))) n
  rw [UnpackedFloat.normalize]
  split
  · rename_i hneg
    rw [Int.compare_eq_lt] at hneg
    have hcast : (Sign.negative.apply 1 * (-n).toNat : ℚ) = n := by
      rw [Sign.apply, Int.cast_neg, Int.cast_one, neg_one_mul, neg_eq_iff_eq_neg]
      exact_mod_cast Int.toNat_of_nonneg (show 0 ≤ -n by omega)
    exact hcast ▸ isNearest_round_natCast .negative (by omega) (by omega)
  · rename_i hzero
    rw [Int.compare_eq_eq] at hzero
    rw [hzero, Int.cast_zero]
    exact isNearest_zero .positive
  · rename_i hpos
    rw [Int.compare_eq_gt] at hpos
    have hcast : (Sign.positive.apply 1 * n.toNat : ℚ) = n := by
      rw [Sign.apply, Int.cast_one, one_mul]
      exact_mod_cast Int.toNat_of_nonneg hpos.le
    exact hcast ▸ isNearest_round_natCast .positive (by omega) (by omega)

/-- An integer that fits in 64 bits has a finite nearest double. -/
theorem isFinite_ofInt {n : Int} (hn : n.natAbs ≤ 2 ^ 64) : (ofInt n).isFinite = true := (isNearest_ofInt hn).finite

variable {x y : Float}

theorem parts_mul (x y : Float) : x * y = .ofModel (.pack (.mul .binary64 (parts x) (parts y))) := rfl

theorem parts_div (x y : Float) : x / y = .ofModel (.pack (.div .binary64 (parts x) (parts y))) := rfl

private theorem apply_mul_apply (s t : Sign) (m n : Nat) (e f : Int) :
    (s.apply m * 2 ^ e * (t.apply n * 2 ^ f) : ℚ) = (s * t).apply 1 * ((m * n : Nat) * 2 ^ (e + f)) := by
  rw [zpow_add₀ two_ne_zero, Nat.cast_mul]
  cases s <;> cases t <;> simp [Sign.apply] <;> ring

/-- A product of mantissas has at least the bits of one of them. -/
private theorem product_fine {m n : Nat} {e f : Int} (hm : Canonical m e) (hn : Canonical n f) :
    e + f ≤ max ((m * n).log2 + (e + f) - 52) (-1074) := by
  have hmn : m * n ≠ 0 := Nat.mul_ne_zero hm.pos.ne' hn.pos.ne'
  have hleft : m.log2 ≤ (m * n).log2 := by
    rw [Nat.le_log2 hmn]
    exact (Nat.log2_self_le hm.pos.ne').trans (Nat.le_mul_of_pos_right m hn.pos)
  have hright : n.log2 ≤ (m * n).log2 := by
    rw [Nat.le_log2 hmn]
    exact (Nat.log2_self_le hn.pos.ne').trans (Nat.le_mul_of_pos_left n hm.pos)
  obtain ⟨-, -, hm⟩ := canonical_iff.1 hm
  obtain ⟨-, -, hn⟩ := canonical_iff.1 hn
  omega

private theorem abs_apply_one (s : Sign) (x : ℚ) : |s.apply 1 * x| = |x| := by
  cases s <;> simp [Sign.apply]

/-- The product of doubles is the nearest double to that of their numbers, if it is not too large. -/
theorem isNearest_mul (hx : x.isFinite = true) (hy : y.isFinite = true)
    (hlt : |value x * value y| < 2 ^ (1000 : Int)) : IsNearest (x * y) (value x * value y) := by
  rw [parts_mul]
  rcases isFinite_iff.1 hx with ⟨s, hs⟩ | ⟨s, m, e, hm, hs⟩
  · rw [value_of_zero hs, zero_mul, hs]
    rcases isFinite_iff.1 hy with ⟨t, ht⟩ | ⟨t, n, f, hn, ht⟩
    · rw [ht]
      exact isNearest_zero (s * t)
    · rw [ht]
      exact isNearest_zero (s * t)
  · rcases isFinite_iff.1 hy with ⟨t, ht⟩ | ⟨t, n, f, hn, ht⟩
    · rw [value_of_zero ht, mul_zero, hs, ht]
      exact isNearest_zero (s * t)
    · rw [value_of_finite hs, value_of_finite ht, apply_mul_apply] at hlt ⊢
      rw [abs_apply_one] at hlt
      rw [hs, ht]
      exact isNearest_round (s * t) (represents_exact (m * n)) (Nat.mul_pos hm hn)
        (product_fine (canonical_of_parts hs) (canonical_of_parts ht)) (lt_of_abs_lt hlt)

private theorem apply_div_apply (s t : Sign) (m n k : Nat) (e f d : Int) (h : e - f = d + k) :
    (s.apply m * 2 ^ e / (t.apply n * 2 ^ f) : ℚ) = (s / t).apply 1 * ((m <<< k : Nat) / n * 2 ^ d) := by
  have hexponent : (2 : ℚ) ^ e / 2 ^ f = 2 ^ k * 2 ^ d := by
    rw [← zpow_sub₀ two_ne_zero, h, add_comm, zpow_add₀ two_ne_zero, zpow_natCast]
  have hunits : (s / t).apply 1 = s.apply 1 * t.apply 1 := by cases s <;> cases t <;> rfl
  have hsign : ((s / t).apply 1 : ℚ) * (m / n) = s.apply m / t.apply n := by
    rw [hunits]
    cases s <;> cases t <;> simp [Sign.apply, neg_div, div_neg]
  rw [mul_div_mul_comm, hexponent, ← hsign, Nat.shiftLeft_eq, Nat.cast_mul, Nat.cast_pow, Nat.cast_ofNat]
  ring

/-- The exponent to which a quotient is taken. -/
private def quotientExponent (m : Nat) (e : Int) (n : Nat) (f : Int) : Int :=
  min (e - f) (max ((m.log2 : Int) + e - n.log2 - f - 53) (-1074))

private theorem divCore_eq (m : Nat) (e : Int) (n : Nat) (f : Int) :
    divCore .binary64 m e n f =
      let k := (e - f - quotientExponent m e n f).toNat
      (m <<< k / n, quotientExponent m e n f, accuracyOfFraction (m <<< k % n) n) := by
  have htarget : Format.binary64.targetExponent (totalExponent m e - totalExponent n f) =
      max ((m.log2 : Int) + e - n.log2 - f - 53) (-1074) := by
    have h := targetExponent_eq ((m.log2 : Int) + e - n.log2 - f - 1) 0
    have htotal : totalExponent m e - totalExponent n f = (m.log2 : Int) + e - n.log2 - f - 1 + 1 + 0 := by
      rw [totalExponent, totalExponent]
      omega
    rw [htotal, h]
    omega
  rw [divCore, htarget]
  rfl

/-- The number of bits of a quotient. -/
private theorem log2_le_of_div {m n : Nat} (hm : 0 < m) (hn : 0 < n) :
    m.log2 ≤ (m / n).log2 + n.log2 + 1 := by
  have hlt : 2 ^ m.log2 < 2 ^ ((m / n).log2 + 1 + (n.log2 + 1)) := by
    calc 2 ^ m.log2 ≤ m := Nat.log2_self_le hm.ne'
      _ < (m / n + 1) * n := Nat.lt_mul_of_div_lt (Nat.lt_succ_self _) hn
      _ ≤ 2 ^ ((m / n).log2 + 1) * 2 ^ (n.log2 + 1) := Nat.mul_le_mul Nat.lt_log2_self Nat.lt_log2_self.le
      _ = 2 ^ ((m / n).log2 + 1 + (n.log2 + 1)) := (pow_add ..).symm
  have hexponents := (Nat.pow_lt_pow_iff_right (by decide)).1 hlt
  omega

/-- The quotient of doubles is the nearest double to that of their numbers, if it is neither too large nor too small. -/
theorem isNearest_div (hx : x.isFinite = true) (hy : y.isFinite = true) (hne : value y ≠ 0)
    (hlow : value x ≠ 0 → 2 ^ (-1000 : Int) ≤ |value x / value y|) (hlt : |value x / value y| < 2 ^ (1000 : Int)) :
    IsNearest (x / y) (value x / value y) := by
  rw [parts_div]
  obtain ⟨t, n, f, hn, ht⟩ := (isFinite_iff.1 hy).resolve_left fun ⟨t, ht⟩ => hne (value_of_zero ht)
  rcases isFinite_iff.1 hx with ⟨s, hs⟩ | ⟨s, m, e, hm, hs⟩
  · rw [value_of_zero hs, zero_div, hs, ht]
    exact isNearest_zero (s / t)
  · have hsmall := hlow (value_ne_zero hs)
    generalize hd : quotientExponent m e n f = d
    obtain ⟨k, hk⟩ : ∃ k : Nat, e - f = d + k := ⟨(e - f - d).toNat, by rw [quotientExponent] at hd; omega⟩
    have hamount : (e - f - d).toNat = k := by omega
    rw [value_of_finite hs, value_of_finite ht, apply_div_apply s t m n k e f d hk] at hlt hsmall ⊢
    rw [abs_apply_one] at hlt hsmall
    rw [hs, ht, UnpackedFloat.div, divCore_eq, hd, hamount]
    have hlog : (m <<< k).log2 = m.log2 + k := by rw [Nat.shiftLeft_eq, log2_mul_two_pow hm]
    have hpos : 0 < m <<< k := by
      rw [Nat.shiftLeft_eq]
      positivity
    have hquotient : 0 < m <<< k / n := by
      rw [Nat.div_pos_iff]
      refine ⟨hn, ?_⟩
      rcases le_or_gt d (-1000) with hle | hgt
      · -- the unit is the least one, and the quotient is at least that
        have hden : (0 : ℚ) < n := Nat.cast_pos.2 hn
        have hnonneg : (0 : ℚ) ≤ (m <<< k : Nat) / n * 2 ^ d := by positivity
        have hone : (1 : ℚ) * 2 ^ d ≤ (m <<< k : Nat) / n * 2 ^ d := by
          rw [one_mul]
          rw [abs_of_nonneg hnonneg] at hsmall
          exact (zpow_le_zpow_right₀ one_le_two hle).trans hsmall
        have hratio := le_of_mul_le_mul_right hone (zpow_pos two_pos d)
        rw [le_div_iff₀ hden, one_mul] at hratio
        exact_mod_cast hratio
      · have hlt : n < 2 ^ (n.log2 + 1) := Nat.lt_log2_self
        refine (hlt.trans_le ?_).le
        rw [← Nat.le_log2 hpos.ne']
        rw [quotientExponent] at hd
        omega
    have hbits := log2_le_of_div hpos hn
    refine isNearest_round (s / t) (represents_fraction (m <<< k) hn) hquotient ?_ (lt_of_abs_lt hlt)
    rw [quotientExponent] at hd
    omega

end CellGraph.Binary64
