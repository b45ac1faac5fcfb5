import CellGraph.Numeric.Binary64
import Mathlib

/-!
# Rounding exact numbers

Rounding a number of more bits than a mantissa has does not depend on how its factors of two are shared between mantissa
and exponent (`roundWithAccuracy_shift`).  So the double that `Binary64.ofRatio` takes for a quotient depends on the
quotient alone, if it is a multiple of a power of two with at most 54 bits (`ofRatio_of_exact`), and a quotient that is
a double is that double (`ofRatio_of_canonical`).
-/

namespace CellGraph.Binary64

open Float.Model (Format totalExponent)
open Float.Model.UnpackedFloat

/-- The exponent that a double with a number of bits has. -/
theorem targetExponent_eq (n e : Int) : Format.binary64.targetExponent (n + 1 + e) = max (n + e - 52) (-1074) := by
  have hbits : (Format.binary64.mantissaBits : Int) = 53 := by decide
  have hmin : Format.binary64.minExponent = -1074 := by decide
  rw [Format.targetExponent, hbits, hmin]
  congr 1
  omega

/-! ### Shifting -/

theorem log2_mul_two_pow {m : Nat} (hm : 0 < m) (k : Nat) : (m * 2 ^ k).log2 = m.log2 + k := by
  rw [Nat.log2_eq_log_two, Nat.log2_eq_log_two]
  induction k with
  | zero => simp
  | succ k ih =>
    have hpos : m * 2 ^ k ≠ 0 := by positivity
    rw [pow_succ, ← mul_assoc, Nat.log_mul_base (by decide) hpos, ih, Nat.add_assoc]

/-- Bits that are zero leave no trace when they are shifted out. -/
private theorem shiftRight_mul_two_pow (m k n : Nat) :
    ExtendedMantissa.mk (m * 2 ^ k) false false >>> (k + n) = ExtendedMantissa.mk m false false >>> n := by
  have hstep : ∀ m, (⟨m * 2, false, false⟩ : ExtendedMantissa).shiftRightOne = ⟨m, false, false⟩ := by
    intro m
    simp [ExtendedMantissa.shiftRightOne]
  have hrepeat : ∀ (i : Nat) (em : ExtendedMantissa),
      (i + 1).repeat ExtendedMantissa.shiftRightOne em = i.repeat ExtendedMantissa.shiftRightOne em.shiftRightOne := by
    intro i
    induction i with
    | zero => exact fun _ => rfl
    | succ i ih => exact fun em => congrArg ExtendedMantissa.shiftRightOne (ih em)
  induction k with
  | zero => rw [pow_zero, Nat.mul_one, Nat.zero_add]
  | succ k ih =>
    show (k + 1 + n).repeat ExtendedMantissa.shiftRightOne _ = _
    rw [Nat.add_right_comm, hrepeat, pow_succ, ← mul_assoc, hstep]
    exact ih

theorem roundWithAccuracy_shift (s : Sign) {m : Nat} {e : Int} (hm : 0 < m) (k : Nat)
    (he : e ≤ Format.binary64.targetExponent (totalExponent m e)) :
    roundWithAccuracy .binary64 s (m * 2 ^ k) (e - k) .exact = roundWithAccuracy .binary64 s m e .exact := by
  have htotal : totalExponent (m * 2 ^ k) (e - k) = totalExponent m e := by
    rw [totalExponent, log2_mul_two_pow hm, totalExponent]
    omega
  have hfirst : shiftToTargetExponent .binary64 (m * 2 ^ k) (e - k) .exact =
      shiftToTargetExponent .binary64 m e .exact := by
    rw [shiftToTargetExponent, shiftToTargetExponent, htotal]
    generalize Format.binary64.targetExponent (totalExponent m e) = t at he
    have hamount : (t - (e - k)).toNat = k + (t - e).toNat := by omega
    simp only [shiftToExponent, hamount, ExtendedMantissa.ofMantissaAndAccuracy, shiftRight_mul_two_pow, Prod.mk.injEq,
      true_and]
    omega
  rw [roundWithAccuracy, hfirst, roundWithAccuracy]

/-! ### Doubles -/

/-- A mantissa and an exponent that a finite double has. -/
structure Canonical (m : Nat) (e : Int) : Prop where
  pos : 0 < m
  target : Format.binary64.targetExponent (totalExponent m e) = e
  le : e ≤ 971

/-- Rounding a double does not change it. -/
theorem roundWithAccuracy_of_canonical (s : Sign) {m : Nat} {e : Int} (h : Canonical m e) :
    roundWithAccuracy .binary64 s m e .exact = .finite s m e h.pos := by
  have hshift : shiftToTargetExponent .binary64 m e .exact = (⟨m, false, false⟩, e) := by
    have hamount : (e - e).toNat = 0 := by omega
    rw [shiftToTargetExponent, h.target, shiftToExponent, hamount]
    exact Prod.ext rfl (Int.add_zero e)
  have hrounded : (⟨m, false, false⟩ : ExtendedMantissa).roundedMantissa = m := rfl
  simp only [roundWithAccuracy, hshift, hrounded, Nat.pos_iff_ne_zero.1 h.pos, ↓reduceDIte]

/-! ### Quotients -/

/-- The numbers of bits of a quotient and of the number that it is. -/
private theorem log2_bounds {num den n : Nat} {e : Int} (hden : 0 < den) (hn : 0 < n)
    (h : num * 2 ^ (-e).toNat = n * 2 ^ e.toNat * den) :
    (n.log2 : Int) + e ≤ num.log2 - den.log2 ∧ (num.log2 : Int) - den.log2 ≤ n.log2 + e + 1 := by
  have hnum : 0 < num := by
    refine Nat.pos_of_ne_zero fun hzero => ?_
    rw [hzero, Nat.zero_mul] at h
    have hpos : 0 < n * 2 ^ e.toNat * den := by positivity
    omega
  have hleft : (num * 2 ^ (-e).toNat).log2 = num.log2 + (-e).toNat := log2_mul_two_pow hnum _
  have hscaled : (n * 2 ^ e.toNat).log2 = n.log2 + e.toNat := log2_mul_two_pow hn _
  have hpos : 0 < n * 2 ^ e.toNat := by positivity
  rw [h] at hleft
  have hlow : (n * 2 ^ e.toNat).log2 + den.log2 ≤ (n * 2 ^ e.toNat * den).log2 := by
    rw [Nat.le_log2 (by positivity), pow_add]
    exact Nat.mul_le_mul (Nat.log2_self_le hpos.ne') (Nat.log2_self_le hden.ne')
  have hhigh : (n * 2 ^ e.toNat * den).log2 < (n * 2 ^ e.toNat).log2 + 1 + (den.log2 + 1) := by
    rw [Nat.log2_lt (by positivity), pow_add]
    exact Nat.mul_lt_mul'' Nat.lt_log2_self Nat.lt_log2_self
  omega

/-- A quotient that is a multiple of the unit that is chosen for it is rounded like that number. -/
private theorem ofRatio_of_unit {num den n : Nat} {e : Int} {k : Nat} (hden : 0 < den)
    (hk : (num.log2 : Int) - den.log2 - 54 = e - k) (h : num * 2 ^ (-e).toNat = n * 2 ^ e.toNat * den) :
    ofRatio num den = roundWithAccuracy .binary64 .positive (n * 2 ^ k) (e - k) .exact := by
  have hratio : num * 2 ^ (-(e - k)).toNat = n * 2 ^ k * (den * 2 ^ (e - k).toNat) := by
    have hscale : 2 ^ (-(e - k)).toNat * 2 ^ e.toNat = 2 ^ (-e).toNat * (2 ^ k * 2 ^ (e - k).toNat) := by
      rw [← pow_add, ← pow_add, ← pow_add]
      congr 1
      omega
    have hpos : 0 < 2 ^ e.toNat := by positivity
    apply Nat.eq_of_mul_eq_mul_right hpos
    calc num * 2 ^ (-(e - k)).toNat * 2 ^ e.toNat = num * 2 ^ (-e).toNat * (2 ^ k * 2 ^ (e - k).toNat) := by
          rw [Nat.mul_assoc, hscale, Nat.mul_assoc]
      _ = n * 2 ^ k * (den * 2 ^ (e - k).toNat) * 2 ^ e.toNat := by
          rw [h]
          ring
  have hpos : 0 < den * 2 ^ (e - k).toNat := by positivity
  have hpow : ∀ i, Nat.pow 2 i = 2 ^ i := fun _ => rfl
  simp only [ofRatio, hk, hpow, hratio, Nat.mul_div_cancel _ hpos, Nat.mul_mod_left, accuracyOfFraction, ↓reduceIte]

/-- A quotient that is a multiple of a power of two is rounded like that number. -/
theorem ofRatio_of_exact {num den n : Nat} {e : Int} (hden : 0 < den) (hn : 0 < n) (hbits : n.log2 ≤ 53)
    (h : num * 2 ^ (-e).toNat = n * 2 ^ e.toNat * den) :
    ofRatio num den = roundWithAccuracy .binary64 .positive (n * 2 ^ 54) (e - 54) .exact := by
  obtain ⟨hlow, hhigh⟩ := log2_bounds hden hn h
  obtain ⟨k, hk⟩ : ∃ k : Nat, (num.log2 : Int) - den.log2 - 54 = e - k :=
    ⟨(e - (num.log2 - den.log2 - 54)).toNat, by omega⟩
  -- with its factors of two the number has 54 bits or more, so it is rounded
  have htarget : ∀ j : Nat, 53 ≤ n.log2 + j →
      e - j ≤ Format.binary64.targetExponent (totalExponent (n * 2 ^ j) (e - j)) := by
    intro j hj
    rw [totalExponent, log2_mul_two_pow hn, targetExponent_eq]
    omega
  rw [ofRatio_of_unit hden hk h]
  rcases Nat.le_total k 54 with hle | hle
  · have hsplit : n * 2 ^ 54 = n * 2 ^ k * 2 ^ (54 - k) := by
      rw [Nat.mul_assoc, ← pow_add, Nat.add_sub_cancel' hle]
    have hexp : e - 54 = e - k - (54 - k : Nat) := by omega
    rw [hsplit, hexp, roundWithAccuracy_shift _ (by positivity) _ (htarget k (by omega))]
  · have hsplit : n * 2 ^ k = n * 2 ^ 54 * 2 ^ (k - 54) := by
      rw [Nat.mul_assoc, ← pow_add, Nat.add_sub_cancel' hle]
    have hexp : e - k = e - 54 - (k - 54 : Nat) := by omega
    rw [hsplit, hexp]
    exact roundWithAccuracy_shift _ (by positivity) _ (htarget 54 (by omega))

theorem Canonical.log2_le {m : Nat} {e : Int} (h : Canonical m e) : m.log2 ≤ 52 := by
  have htarget := h.target
  rw [totalExponent, targetExponent_eq] at htarget
  omega

/-- A quotient that is a double is read as that double. -/
theorem ofRatio_of_canonical {num den m : Nat} {e : Int} (hden : 0 < den) (hm : Canonical m e)
    (h : num * 2 ^ (-e).toNat = m * 2 ^ e.toNat * den) : ofRatio num den = .finite .positive m e hm.pos := by
  have hbits := hm.log2_le
  rw [ofRatio_of_exact hden hm.pos (by omega) h]
  have hshift := roundWithAccuracy_shift .positive hm.pos 54 hm.target.ge
  rw [← roundWithAccuracy_of_canonical .positive hm, ← hshift]
  rfl

end CellGraph.Binary64
