import CellGraph.Proofs.Numeric.Value

/-!
# The nearest double to a number

The doubles of the magnitude of a number are the multiples of one power of two (`unitExponent`), so the nearest one is
found by rounding to an integer, ties to the even one (`nearest`).  No other finite double is nearer
(`abs_nearest_sub_le`), a number that a double denotes is its own nearest one (`nearest_value`), and the nearest one to an
integer is an integer (`exists_int_nearest`).  There is no largest exponent here, so `nearest` tells what an operation
gives that stays within the finite doubles.
-/

namespace CellGraph.Binary64

open Float.Model (UnpackedFloat)
open Float.Model.UnpackedFloat

/-! ### Rounding to integers -/

/-- The nearest integer, the even one of two. -/
def roundEven (x : ℚ) : Int :=
  if x - ⌊x⌋ < 1 / 2 then ⌊x⌋ else if 1 / 2 < x - ⌊x⌋ then ⌊x⌋ + 1 else ⌊x⌋ + ⌊x⌋ % 2

theorem roundEven_intCast (n : Int) : roundEven n = n := by
  rw [roundEven, Int.floor_intCast, if_pos (by norm_num)]

theorem roundEven_cases (x : ℚ) : roundEven x = ⌊x⌋ ∨ roundEven x = ⌊x⌋ + 1 := by
  unfold roundEven
  split
  · exact Or.inl rfl
  · split
    · exact Or.inr rfl
    · omega

theorem le_roundEven {x : ℚ} {n : Int} (h : (n : ℚ) ≤ x) : n ≤ roundEven x := by
  have hfloor := Int.le_floor.2 h
  rcases roundEven_cases x with hround | hround
  · omega
  · omega

theorem roundEven_le {x : ℚ} {n : Int} (h : x < n) : roundEven x ≤ n := by
  have hfloor := Int.floor_lt.2 h
  rcases roundEven_cases x with hround | hround
  · omega
  · omega

theorem abs_roundEven_sub_le_half (x : ℚ) : |roundEven x - x| ≤ 1 / 2 := by
  have hlow := Int.floor_le x
  have hhigh := Int.lt_floor_add_one x
  unfold roundEven
  split
  · rename_i h
    rw [abs_sub_comm, abs_of_nonneg (by linarith)]
    exact h.le
  · split
    · rw [Int.cast_add, Int.cast_one, abs_of_nonneg (by linarith)]
      linarith
    · rcases Int.emod_two_eq_zero_or_one ⌊x⌋ with heven | hodd
      · rw [heven, add_zero, abs_sub_comm, abs_of_nonneg (by linarith)]
        linarith
      · rw [hodd, Int.cast_add, Int.cast_one, abs_of_nonneg (by linarith)]
        linarith

/-- No integer is nearer. -/
theorem abs_roundEven_sub_le (x : ℚ) (n : Int) : |roundEven x - x| ≤ |n - x| := by
  have hhalf := abs_roundEven_sub_le_half x
  rcases eq_or_ne n (roundEven x) with rfl | hne
  · exact le_rfl
  · have hapart : (1 : ℚ) ≤ |(n : ℚ) - roundEven x| := by
      exact_mod_cast Int.one_le_abs (sub_ne_zero.2 hne)
    have htriangle := abs_sub_le (n : ℚ) x (roundEven x)
    rw [abs_sub_comm x] at htriangle
    linarith

/-- The integers around a number that is none. -/
private theorem floor_neg_of_ne {x : ℚ} (hx : x ≠ ⌊x⌋) : ⌊-x⌋ = -⌊x⌋ - 1 := by
  have hlow : (⌊x⌋ : ℚ) < x := lt_of_le_of_ne (Int.floor_le x) hx.symm
  have hhigh := Int.lt_floor_add_one x
  rw [Int.floor_eq_iff]
  push_cast
  constructor
  · linarith
  · linarith

theorem roundEven_neg (x : ℚ) : roundEven (-x) = -roundEven x := by
  by_cases hx : x = ⌊x⌋
  · rw [hx, ← Int.cast_neg, roundEven_intCast, roundEven_intCast]
  · have hfloor := floor_neg_of_ne hx
    rw [roundEven, roundEven, hfloor]
    push_cast
    rcases lt_trichotomy (x - ⌊x⌋) (1 / 2) with h | h | h
    · rw [if_neg (by linarith), if_pos (by linarith), if_pos h]
      omega
    · rw [if_neg (by linarith), if_neg (by linarith), if_neg (by linarith), if_neg (by linarith)]
      omega
    · rw [if_pos (by linarith), if_neg (by linarith), if_pos h]
      omega

/-! ### Magnitudes -/

/-- The exponent of the doubles with the magnitude of a number. -/
def unitExponent (x : ℚ) : Int := max (Int.log 2 |x| - 52) (-1074)

theorem unitExponent_neg (x : ℚ) : unitExponent (-x) = unitExponent x := by
  rw [unitExponent, abs_neg, unitExponent]

/-- The magnitude of a number is that of the integral part of its mantissa. -/
theorem log_abs_eq {m : Nat} {e : Int} {r : ℚ} (hm : 0 < m) (hlow : m ≤ r) (hhigh : r < m + 1) :
    Int.log 2 |r * 2 ^ e| = m.log2 + e := by
  have hunit : (0 : ℚ) < 2 ^ e := zpow_pos two_pos e
  have hr : 0 < r := lt_of_lt_of_le (Nat.cast_pos.2 hm) hlow
  have hpos : 0 < r * 2 ^ e := mul_pos hr hunit
  have hpow : ∀ k : Nat, ((2 : Nat) : ℚ) ^ ((k : Int) + e) = ((2 ^ k : Nat) : ℚ) * 2 ^ e := by
    intro k
    rw [Nat.cast_ofNat, zpow_add₀ two_ne_zero, zpow_natCast, Nat.cast_pow, Nat.cast_ofNat]
  rw [abs_of_pos hpos]
  refine le_antisymm ?_ ?_
  · rw [← Int.lt_add_one_iff, ← Int.lt_zpow_iff_log_lt one_lt_two hpos, add_right_comm]
    have hsize : r < ((2 ^ (m.log2 + 1) : Nat) : ℚ) := by
      refine hhigh.trans_le ?_
      exact_mod_cast Nat.succ_le_of_lt Nat.lt_log2_self
    calc r * 2 ^ e < ((2 ^ (m.log2 + 1) : Nat) : ℚ) * 2 ^ e := by gcongr
      _ = ((2 : Nat) : ℚ) ^ (((m.log2 + 1 : Nat) : Int) + e) := (hpow _).symm
  · rw [← Int.zpow_le_iff_le_log one_lt_two hpos, hpow]
    have hsize : ((2 ^ m.log2 : Nat) : ℚ) ≤ r := by
      refine le_trans ?_ hlow
      exact_mod_cast Nat.log2_self_le hm.ne'
    gcongr

theorem unitExponent_eq {m : Nat} {e : Int} {r : ℚ} (hm : 0 < m) (hlow : m ≤ r) (hhigh : r < m + 1) :
    unitExponent (r * 2 ^ e) = max (m.log2 + e - 52) (-1074) := by
  rw [unitExponent, log_abs_eq hm hlow hhigh]

theorem unitExponent_natCast {m : Nat} (hm : 0 < m) (e : Int) :
    unitExponent (m * 2 ^ e : ℚ) = max (m.log2 + e - 52) (-1074) := unitExponent_eq hm le_rfl (lt_add_one _)

theorem unitExponent_apply (s : Sign) (m : Nat) (e : Int) :
    unitExponent (s.apply m * 2 ^ e : ℚ) = unitExponent (m * 2 ^ e : ℚ) := by
  cases s with
  | positive => rfl
  | negative => rw [Sign.apply, Int.cast_neg, Int.cast_natCast, neg_mul, unitExponent_neg]

theorem Canonical.unitExponent_eq {m : Nat} {e : Int} (h : Canonical m e) : unitExponent (m * 2 ^ e : ℚ) = e := by
  rw [unitExponent_natCast h.pos, ← targetExponent_eq]
  exact h.target

/-! ### Nearest doubles -/

/-- The nearest double to a number, the one with the even mantissa of two, if there is no largest exponent. -/
def nearest (x : ℚ) : ℚ := roundEven (x / 2 ^ unitExponent x) * 2 ^ unitExponent x

theorem nearest_neg (x : ℚ) : nearest (-x) = -nearest x := by
  rw [nearest, nearest, unitExponent_neg, neg_div, roundEven_neg, Int.cast_neg, neg_mul]

theorem unit_pos (x : ℚ) : (0 : ℚ) < 2 ^ unitExponent x := zpow_pos two_pos _

theorem nearest_apply (s : Sign) (x : ℚ) : nearest (s.apply 1 * x) = s.apply 1 * nearest x := by
  cases s with
  | positive => rw [Sign.apply, Int.cast_one, one_mul, one_mul]
  | negative => rw [Sign.apply, Int.cast_neg, Int.cast_one, neg_one_mul, neg_one_mul, nearest_neg]

/-- A multiple of a power of two is one of each smaller power. -/
private theorem mul_two_pow_eq (k : Int) {e u : Int} (h : u ≤ e) :
    (k * 2 ^ e : ℚ) = (k * 2 ^ (e - u).toNat : Int) * 2 ^ u := by
  rw [Int.cast_mul, Int.cast_pow, Int.cast_ofNat, mul_assoc, ← zpow_natCast, ← zpow_add₀ two_ne_zero,
    Int.toNat_of_nonneg (by omega), Int.sub_add_cancel]

/-- A multiple of the unit of its magnitude is its own nearest double. -/
theorem nearest_of_multiple {x : ℚ} {k e : Int} (h : x = k * 2 ^ e) (he : unitExponent x ≤ e) : nearest x = x := by
  have hunit := (unit_pos x).ne'
  have hmultiple : x / 2 ^ unitExponent x = ((k * 2 ^ (e - unitExponent x).toNat : Int) : ℚ) := by
    rw [div_eq_iff hunit, ← mul_two_pow_eq k he]
    exact h
  rw [nearest, hmultiple, roundEven_intCast, ← hmultiple, div_mul_cancel₀ x hunit]

theorem nearest_zero : nearest 0 = 0 := by
  refine nearest_of_multiple (k := 0) (e := unitExponent 0) ?_ le_rfl
  rw [Int.cast_zero, zero_mul]

/-- What a finite double denotes is its own nearest double. -/
theorem nearest_value {x : Float} (hx : x.isFinite = true) : nearest (value x) = value x := by
  rcases isFinite_iff.1 hx with ⟨s, hs⟩ | ⟨s, m, e, hm, hs⟩
  · rw [value_of_zero hs, nearest_zero]
  · have hexponent : unitExponent (value x) = e := by
      rw [value_of_finite hs, unitExponent_apply, (canonical_of_parts hs).unitExponent_eq]
    exact nearest_of_multiple (value_of_finite hs) hexponent.le

/-- The nearest double to an integer is an integer. -/
theorem exists_int_nearest (n : Int) : ∃ i : Int, nearest n = i := by
  rcases le_or_gt 0 (unitExponent n) with hunit | hunit
  · refine ⟨roundEven (n / 2 ^ unitExponent n) * 2 ^ (unitExponent n).toNat, ?_⟩
    rw [nearest]
    push_cast
    rw [← zpow_natCast, Int.toNat_of_nonneg hunit]
  · refine ⟨n, nearest_of_multiple (k := n) (e := 0) ?_ hunit.le⟩
    rw [zpow_zero, mul_one]

private theorem unitExponent_mul_two_pow {n : Int} (hn : 0 < n.natAbs) (k : Nat) :
    unitExponent (n * 2 ^ (k : Int) : ℚ) = max ((n.natAbs.log2 : Int) + k - 52) (-1074) := by
  rw [← unitExponent_natCast hn]
  rcases abs_choice (n : ℚ) with h | h
  · rw [Nat.cast_natAbs, Int.cast_abs, h]
  · rw [Nat.cast_natAbs, Int.cast_abs, h, neg_mul, unitExponent_neg]

/-- An integer of at most 53 bits, or the one after these, times a power of two is a double. -/
theorem nearest_mul_two_pow {n : Int} (hn : n.natAbs ≤ 2 ^ 53) (k : Nat) :
    nearest (n * 2 ^ k : ℚ) = n * 2 ^ k := by
  rcases Nat.eq_zero_or_pos n.natAbs with hzero | hpos
  · rw [Int.natAbs_eq_zero.1 hzero, Int.cast_zero, zero_mul, nearest_zero]
  · have hunit := unitExponent_mul_two_pow hpos k
    rw [← zpow_natCast]
    rcases Nat.lt_or_eq_of_le hn with hlt | hlimit
    · have hbits : n.natAbs.log2 < 53 := (Nat.log2_lt hpos.ne').2 hlt
      exact nearest_of_multiple rfl (by omega)
    · -- one bit more than a mantissa has, but the last one is zero
      rw [hlimit, Nat.log2_two_pow] at hunit
      obtain ⟨half, rfl⟩ : ∃ half, n = half * 2 := ⟨n / 2, by omega⟩
      have hhalf : ((half * 2 : Int) * 2 ^ (k : Int) : ℚ) = half * 2 ^ ((k : Int) + 1) := by
        rw [zpow_add₀ two_ne_zero, zpow_one, mul_comm (2 ^ (k : Int) : ℚ), ← mul_assoc, Int.cast_mul, Int.cast_ofNat]
      exact nearest_of_multiple hhalf (by omega)

/-- No multiple of the unit is nearer. -/
private theorem abs_nearest_sub_le_of_multiple (x : ℚ) (k : Int) :
    |nearest x - x| ≤ |k * 2 ^ unitExponent x - x| := by
  have hunit := unit_pos x
  have hscale : ∀ n : ℚ, |n * 2 ^ unitExponent x - x| = |n - x / 2 ^ unitExponent x| * 2 ^ unitExponent x := by
    intro n
    rw [← abs_of_pos hunit, ← abs_mul, abs_of_pos hunit, sub_mul, div_mul_cancel₀ _ hunit.ne']
  rw [nearest, hscale, hscale]
  exact mul_le_mul_of_nonneg_right (abs_roundEven_sub_le _ k) hunit.le

/-- Doubles of a smaller unit are smaller than a number in size, with a multiple of its unit between. -/
private theorem abs_value_lt_of_lt {x : ℚ} (hx : x ≠ 0) {y : Float} {s : Sign} {m : Nat} {e : Int} {hm : 0 < m}
    (hs : parts y = .finite s m e hm) (hlt : e < unitExponent x) :
    |value y| < 2 ^ 52 * 2 ^ unitExponent x ∧ 2 ^ 52 * 2 ^ unitExponent x ≤ |x| := by
  obtain ⟨-, -, hcases⟩ := canonical_iff.1 (canonical_of_parts hs)
  constructor
  · have hbits : (m : ℚ) < 2 ^ 53 := by
      have hlt : m < 2 ^ 53 := Nat.lt_log2_self.trans_le (Nat.pow_le_pow_right (by decide) (by omega))
      exact_mod_cast hlt
    have habs : |value y| = m * 2 ^ e := by
      rw [value_of_finite hs, abs_mul, abs_of_pos (show (0 : ℚ) < 2 ^ e from zpow_pos two_pos e)]
      cases s <;> simp [Sign.apply]
    calc |value y| = m * 2 ^ e := habs
      _ < 2 ^ 53 * 2 ^ e := by gcongr
      _ ≤ 2 ^ 53 * 2 ^ (unitExponent x - 1) := by
        gcongr
        · exact one_le_two
        · omega
      _ = 2 ^ 52 * 2 ^ unitExponent x := by
        rw [zpow_sub_one₀ two_ne_zero]
        ring
  · have hunit : unitExponent x = Int.log 2 |x| - 52 := by
      rw [unitExponent] at hlt ⊢
      omega
    calc (2 : ℚ) ^ 52 * 2 ^ unitExponent x = 2 ^ Int.log 2 |x| := by
          rw [hunit, ← zpow_natCast, ← zpow_add₀ two_ne_zero]
          congr 1
          omega
      _ ≤ |x| := Int.zpow_log_le_self one_lt_two (abs_pos.2 hx)

/-- No finite double is nearer. -/
theorem abs_nearest_sub_le (x : ℚ) {y : Float} (hy : y.isFinite = true) : |nearest x - x| ≤ |value y - x| := by
  rcases isFinite_iff.1 hy with ⟨s, hs⟩ | ⟨s, m, e, hm, hs⟩
  · have h := abs_nearest_sub_le_of_multiple x 0
    rwa [Int.cast_zero, zero_mul, ← value_of_zero hs] at h
  · rcases le_or_gt (unitExponent x) e with hle | hlt
    · have hmultiple : value y = (s.apply m * 2 ^ (e - unitExponent x).toNat : Int) * 2 ^ unitExponent x := by
        rw [value_of_finite hs, mul_two_pow_eq _ hle]
      rw [hmultiple]
      exact abs_nearest_sub_le_of_multiple x _
    · rcases eq_or_ne x 0 with rfl | hx
      · rw [nearest_zero, sub_self, abs_zero]
        exact abs_nonneg _
      · obtain ⟨hsmall, hlarge⟩ := abs_value_lt_of_lt hx hs hlt
        obtain ⟨hlow, hhigh⟩ := abs_lt.1 hsmall
        rcases le_total 0 x with hsign | hsign
        · refine (abs_nearest_sub_le_of_multiple x (2 ^ 52)).trans ?_
          rw [abs_of_nonneg hsign] at hlarge
          rw [Int.cast_pow, Int.cast_ofNat, abs_sub_comm, abs_of_nonneg (by linarith), abs_sub_comm,
            abs_of_nonneg (by linarith)]
          linarith
        · refine (abs_nearest_sub_le_of_multiple x (-2 ^ 52)).trans ?_
          rw [abs_of_nonpos hsign] at hlarge
          rw [Int.cast_neg, Int.cast_pow, Int.cast_ofNat, abs_of_nonneg (by linarith), abs_of_nonneg (by linarith)]
          linarith

/-- The nearest double is not far off: zero is as near as the number is large. -/
theorem abs_nearest_le (x : ℚ) : |nearest x| ≤ 2 * |x| := by
  have h := abs_nearest_sub_le_of_multiple x 0
  rw [Int.cast_zero, zero_mul, zero_sub, abs_neg] at h
  have htriangle := abs_sub_abs_le_abs_sub (nearest x) x
  linarith

end CellGraph.Binary64
