import CellGraph.Proofs.Numeric.Double

/-!
# Integers that are doubles

An integer that has the value of canonical parts is rounded to the double with these parts (`round_of_value`), and so a
double gives back the integer from which it was made, if that integer is at most two to the power of 53 in size
(`toInt?_ofInt`).
-/

namespace CellGraph.Binary64

open Float.Model (Format UnpackedFloat totalExponent)
open Float.Model.UnpackedFloat

/-- The integer `n` is `m · 2 ^ e`. -/
def HasValue (n m : Nat) (e : Int) : Prop := n * 2 ^ (-e).toNat = m * 2 ^ e.toNat

theorem HasValue.totalExponent_eq {n m : Nat} {e : Int} (h : HasValue n m e) (hn : 0 < n) (hm : 0 < m) :
    totalExponent n 0 = totalExponent m e := by
  have hlog := congrArg Nat.log2 h
  rw [log2_mul_two_pow hn, log2_mul_two_pow hm] at hlog
  rw [totalExponent, totalExponent]
  omega

theorem HasValue.pos {n m : Nat} {e : Int} (h : HasValue n m e) (hm : 0 < m) : 0 < n := by
  refine Nat.pos_of_ne_zero fun hzero => ?_
  rw [HasValue, hzero, Nat.zero_mul] at h
  have hpos : 0 < m * 2 ^ e.toNat := by positivity
  omega

/-- An integer that is a double is rounded to that double. -/
theorem round_of_value (s : Sign) {n m : Nat} {e : Int} (hm : Canonical m e) (h : HasValue n m e) :
    UnpackedFloat.round .binary64 s n 0 = .finite s m e hm.pos := by
  have hpos := h.pos hm.pos
  have htarget : Format.binary64.targetExponent (totalExponent n 0) = e := by
    rw [h.totalExponent_eq hpos hm.pos, hm.target]
  rw [UnpackedFloat.round, htarget, decreaseExponent]
  rw [HasValue] at h
  simp only [Nat.shiftLeft_eq]
  rcases le_or_gt e 0 with he | he
  · -- the integer takes zeros on the right until it has the bits of a mantissa
    have hzero : e.toNat = 0 := by omega
    have hamount : (0 - e).toNat = (-e).toNat := by omega
    have hexponent : 0 - ((-e).toNat : Int) = e := by omega
    rw [hamount, hexponent, h, hzero, pow_zero, Nat.mul_one]
    exact roundWithAccuracy_of_canonical s hm
  · -- the integer has zeros on the right that a mantissa has no room for
    have hzero : (-e).toNat = 0 := by omega
    have hamount : (0 - e).toNat = 0 := by omega
    have hexponent : (0 : Int) - (0 : Nat) = e - e.toNat := by omega
    rw [hzero, pow_zero, Nat.mul_one] at h
    rw [hamount, hexponent, h, pow_zero, Nat.mul_one, roundWithAccuracy_shift s hm.pos _ hm.target.ge]
    exact roundWithAccuracy_of_canonical s hm

/-- The integer that parts stand for. -/
theorem toInt?_of_value {x : Float} {s : Sign} {n m : Nat} {e : Int} {hm : 0 < m} (hparts : parts x = .finite s m e hm)
    (h : HasValue n m e) : toInt? x = some (s.apply n) := by
  have hpow : ∀ i, Nat.pow 2 i = 2 ^ i := fun _ => rfl
  rw [HasValue] at h
  simp only [toInt?, hparts, hpow]
  rcases lt_or_ge e 0 with he | he
  · have hzero : e.toNat = 0 := by omega
    rw [hzero, pow_zero, Nat.mul_one] at h
    have hunit : 0 < 2 ^ (-e).toNat := by positivity
    rw [if_neg (by omega), ← h, Nat.mul_mod_left, if_pos rfl, Nat.mul_div_cancel _ hunit]
  · have hzero : (-e).toNat = 0 := by omega
    rw [hzero, pow_zero, Nat.mul_one] at h
    rw [if_pos he, h]
    rfl

/-- An integer of at most 53 bits, or the one after these, is a double. -/
theorem exists_canonical {n : Nat} (hpos : 0 < n) (hle : n ≤ 2 ^ 53) : ∃ m e, Canonical m e ∧ HasValue n m e := by
  rcases Nat.lt_or_eq_of_le hle with hlt | rfl
  · have hbits : n.log2 < 53 := (Nat.log2_lt hpos.ne').2 hlt
    have hfull : (n * 2 ^ (52 - n.log2)).log2 = 52 := by
      rw [log2_mul_two_pow hpos]
      omega
    refine ⟨n * 2 ^ (52 - n.log2), -(52 - n.log2 : Nat), ?_, ?_⟩
    · exact canonical_iff.2 ⟨by positivity, by omega, Or.inl ⟨hfull, by omega⟩⟩
    · rw [HasValue, Int.neg_neg, Int.toNat_natCast, Int.toNat_neg_natCast, pow_zero, Nat.mul_one]
  · exact ⟨2 ^ 52, 1, canonical_iff.2 ⟨by decide, by decide, Or.inl ⟨Nat.log2_two_pow, by decide⟩⟩, rfl⟩

private theorem toInt?_round (s : Sign) {n : Nat} (hpos : 0 < n) (hle : n ≤ 2 ^ 53) :
    toInt? (.ofModel (.pack (.round .binary64 s n 0))) = some (s.apply n) := by
  obtain ⟨m, e, hm, hvalue⟩ := exists_canonical hpos hle
  rw [round_of_value s hm hvalue]
  exact toInt?_of_value (parts_pack_finite s hm) hvalue

/-- An integer of at most 53 bits, or the one after these, is given back by its double. -/
theorem toInt?_ofInt {n : Int} (hn : n.natAbs ≤ 2 ^ 53) : toInt? (ofInt n) = some n := by
  show toInt? (Float.ofModel (.pack (.normalize .binary64 n 0 .positive))) = some n
  rw [UnpackedFloat.normalize]
  split
  · rename_i hneg
    rw [Int.compare_eq_lt] at hneg
    rw [toInt?_round .negative (by omega) (by omega), Sign.apply]
    congr 1
    omega
  · rename_i hzero
    rw [Int.compare_eq_eq] at hzero
    rw [hzero, toInt?, parts_pack_zero]
  · rename_i hpos
    rw [Int.compare_eq_gt] at hpos
    rw [toInt?_round .positive (by omega) (by omega), Sign.apply]
    congr 1
    omega

end CellGraph.Binary64
