import CellGraph.Numeric.Shortest
import CellGraph.Proofs.Numeric.Double

/-!
# Decimal fractions and doubles

The shortest decimal fraction of a double is read as that double (`parts_shortest`): a point of a grid that is taken was
tried, and the finite expansion is exact.  A decimal fraction that is a small whole number may be written with one place
after the point (`parts_tenths`).
-/

namespace CellGraph

open Float.Model (UnpackedFloat)
open Float.Model.UnpackedFloat
open Binary64 (Canonical)

namespace Decimal

/-! ### Reading a decimal fraction -/

private theorem sign_of_roundWithAccuracy {s s' : Sign} {m n : Nat} {e f : Int} {a : Accuracy} {hn : 0 < n}
    (h : roundWithAccuracy .binary64 s m e a = .finite s' n f hn) : s' = s := by
  simp only [roundWithAccuracy] at h
  split at h
  · simp at h
  · exact (UnpackedFloat.finite.inj h).1.symm

/-- The double of a decimal fraction has no sign. -/
theorem sign_of_parts {d : Decimal} {s : Sign} {m : Nat} {e : Int} {hm : 0 < m} (h : d.parts = .finite s m e hm) :
    s = .positive ∧ 0 < d.coefficient := by
  simp only [parts] at h
  split at h
  · simp at h
  · rename_i hzero
    split at h
    · simp at h
    · split at h
      · simp at h
      · exact ⟨sign_of_roundWithAccuracy h, Nat.pos_of_ne_zero hzero⟩

theorem readsAs_iff {m : Nat} {e : Int} {d : Decimal} :
    readsAs m e d = true ↔ ∃ hm, d.parts = .finite .positive m e hm := by
  unfold readsAs
  constructor
  · intro h
    split at h
    · rename_i s m' e' hm' hparts
      simp only [Bool.and_eq_true, beq_iff_eq] at h
      obtain ⟨rfl, rfl⟩ := h
      obtain ⟨rfl, -⟩ := sign_of_parts hparts
      exact ⟨hm', hparts⟩
    · simp at h
  · rintro ⟨hm, hparts⟩
    simp [hparts]

/-- A decimal fraction within the range of doubles is read as a quotient. -/
private theorem parts_of_range {c : Nat} {k : Int} (hc : 0 < c) (hlarge : 0 ≤ k → c.log2 + 3 * k < 1024)
    (hsmall : k < 0 → -1080 ≤ c.log2 + 3 * k) :
    parts ⟨c, k⟩ = Binary64.ofRatio (c * 10 ^ k.toNat) (10 ^ (-k).toNat) := by
  have hinfinite : ¬ (0 ≤ k ∧ 1024 ≤ (c.log2 : Int) + 3 * k) := by omega
  have hzero : ¬ (k < 0 ∧ (c.log2 : Int) + 3 * k < -1080) := by omega
  simp only [parts, hc.ne', hinfinite, hzero, ↓reduceIte]
  rfl

/-! ### The shortest decimal fraction -/

theorem parts_expansion {m : Nat} {e : Int} (h : Canonical m e) :
    (expansion m e).parts = .finite .positive m e h.pos := by
  obtain ⟨hpos, hle, hcases⟩ := Binary64.canonical_iff.1 h
  have hcoefficient : 0 < m * 2 ^ e.toNat * 5 ^ (-e).toNat := by positivity
  have hfour : 2 * (-e).toNat ≤ (m * 2 ^ e.toNat * 5 ^ (-e).toNat).log2 := by
    rw [Nat.le_log2 hcoefficient.ne', pow_mul]
    calc (2 ^ 2) ^ (-e).toNat ≤ 5 ^ (-e).toNat := Nat.pow_le_pow_left (by decide) _
      _ ≤ m * 2 ^ e.toNat * 5 ^ (-e).toNat := Nat.le_mul_of_pos_left _ (by positivity)
  have hwhole : 0 ≤ e → ((m * 2 ^ e.toNat * 5 ^ (-e).toNat).log2 : Int) = m.log2 + e := by
    intro he
    have hnone : (-e).toNat = 0 := by omega
    rw [hnone, pow_zero, Nat.mul_one, Binary64.log2_mul_two_pow hpos]
    omega
  show parts ⟨m * 2 ^ e.toNat * 5 ^ (-e).toNat, min e 0⟩ = _
  rw [parts_of_range hcoefficient (by omega) (by omega)]
  refine Binary64.ofRatio_of_canonical (by positivity) h ?_
  have hup : (min e 0).toNat = 0 := by omega
  have hdown : (-min e 0).toNat = (-e).toNat := by omega
  rw [hup, hdown, pow_zero, Nat.mul_one, Nat.mul_assoc, ← Nat.mul_pow]

private theorem readsAs_onGrid {tie : Tie} {m : Nat} {e k : Int} {d : Decimal} (h : onGrid tie m e k = some d) :
    readsAs m e d = true := by
  simp only [onGrid] at h
  split at h
  · simp at h
  · exact Option.some.inj h ▸ ‹_›
  · exact Option.some.inj h ▸ ‹_›
  · split at h
    · exact Option.some.inj h ▸ ‹_›
    · exact Option.some.inj h ▸ ‹_›
    · split at h
      · exact Option.some.inj h ▸ ‹_›
      · split at h
        · exact Option.some.inj h ▸ ‹_›
        · exact Option.some.inj h ▸ ‹_›

/-- The shortest decimal fraction of a double is read as that double. -/
theorem parts_shortest (tie : Tie) {m : Nat} {e : Int} (h : Canonical m e) :
    (shortest tie m e).parts = .finite .positive m e h.pos := by
  have hgrids : ∀ (n : Nat) (k : Int), (firstOnGrid tie m e n k).parts = .finite .positive m e h.pos := by
    intro n
    induction n with
    | zero => exact fun _ => parts_expansion h
    | succ n ih =>
      intro k
      rw [firstOnGrid]
      split
      · rename_i d hd
        obtain ⟨_, hparts⟩ := readsAs_iff.1 (readsAs_onGrid hd)
        exact hparts
      · exact ih (k - 1)
  exact hgrids _ _

/-- A whole number of at most 54 bits is read the same when it is counted in tenths. -/
theorem parts_tenths {c z : Nat} (hc : 0 < c) (h : c * 10 ^ z < 2 ^ 54) :
    parts ⟨c * 10 ^ (z + 1), -1⟩ = parts ⟨c, z⟩ := by
  have hpos : 0 < c * 10 ^ z := by positivity
  have hbits : (c * 10 ^ z).log2 ≤ 53 := by
    have hlog := (Nat.log2_lt hpos.ne').2 h
    omega
  have hrange : c.log2 + 3 * z ≤ 53 := by
    have height : 2 ^ (c.log2 + 3 * z) ≤ c * 10 ^ z := by
      rw [pow_add, pow_mul]
      exact Nat.mul_le_mul (Nat.log2_self_le hc.ne') (Nat.pow_le_pow_left (by decide) z)
    have hlog := (Nat.le_log2 hpos.ne').2 height
    omega
  have hleft : parts ⟨c * 10 ^ (z + 1), -1⟩ = Binary64.ofRatio (c * 10 ^ (z + 1)) 10 := by
    rw [parts_of_range (by positivity) (by omega) (by omega)]
    simp only [Int.reduceNeg, Int.reduceToNat, neg_neg, pow_zero, Nat.mul_one, pow_one]
  have hright : parts ⟨c, z⟩ = Binary64.ofRatio (c * 10 ^ z) 1 := by
    rw [parts_of_range hc (by omega) (by omega)]
    simp only [Int.toNat_natCast, Int.toNat_neg_natCast, pow_zero]
  rw [hleft, hright, Binary64.ofRatio_of_exact (e := 0) (by decide) hpos hbits (by simp; ring),
    Binary64.ofRatio_of_exact (e := 0) (by decide) hpos hbits (by simp)]

end Decimal

end CellGraph
