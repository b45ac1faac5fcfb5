import CellGraph.Proofs.Numeric.Rounding

/-!
# Parts of a double

The parts of a double say which double it is (`ofModel_pack_parts`), and the mantissa and the exponent of a finite one
are canonical (`canonical_of_parts`).  The other way round, canonical parts are those of the double that is packed from
them (`parts_pack_finite`).
-/

namespace CellGraph.Binary64

open Float.Model (Format UnpackedFloat totalExponent)
open Float.Model.UnpackedFloat

/-- A mantissa is full, or the exponent is the least one. -/
theorem canonical_iff {m : Nat} {e : Int} :
    Canonical m e ↔ 0 < m ∧ e ≤ 971 ∧ (m.log2 = 52 ∧ -1074 ≤ e ∨ m.log2 < 52 ∧ e = -1074) := by
  constructor
  · rintro ⟨hpos, htarget, hle⟩
    rw [totalExponent, targetExponent_eq] at htarget
    exact ⟨hpos, hle, by omega⟩
  · rintro ⟨hpos, hle, hcases⟩
    refine ⟨hpos, ?_, hle⟩
    rw [totalExponent, targetExponent_eq]
    omega

theorem ofModel_pack_parts (x : Float) : Float.ofModel (.pack (parts x)) = x := by
  obtain ⟨⟨bits, hvalid⟩⟩ := x
  have hpack : UnpackedFloat.pack Format.binary64 (unpack .binary64 bits.toBitVec) = bits.toBitVec :=
    pack_unpack_of_valid hvalid
  show Float.ofModel ⟨UInt64.ofBitVec (UnpackedFloat.pack Format.binary64 (unpack .binary64 bits.toBitVec)), _⟩ = _
  congr

private theorem finite_congr (s : Sign) {m n : Nat} {e f : Int} {hm : 0 < m} {hn : 0 < n} (hmn : m = n) (hef : e = f) :
    UnpackedFloat.finite s m e hm = .finite s n f hn := by
  subst hmn hef
  rfl

/-- A mantissa field with the bit that is implied. -/
private theorem toNat_implied (m : BitVec 52) : (1#1 ++ m).toNat = 2 ^ 52 + m.toNat := by
  rw [BitVec.toNat_append, ← Nat.shiftLeft_add_eq_or_of_lt m.isLt, Nat.shiftLeft_eq]
  rfl

theorem ofNat_ne_full {b : Nat} (hb : b < 2047) : BitVec.ofNat 11 b ≠ -1#11 := by
  intro h
  have hvalue := congrArg BitVec.toNat h
  have hfull : (-1#11).toNat = 2047 := by decide
  rw [BitVec.toNat_ofNat, Nat.mod_eq_of_lt (by omega)] at hvalue
  omega

/-- An exponent field that is not zero and not full, and a mantissa whose first bit is implied. -/
private theorem unpack_normal (s : Sign) {m b : Nat} (hm : 0 < m) (hlow : 2 ^ 52 ≤ m) (hhigh : m < 2 ^ 53) (hb : 0 < b)
    (hb' : b < 2047) : unpack .binary64 (packComponents .binary64 s (.ofNat 11 b) (.ofNat 52 m)) =
      .finite s m (b - 1075) hm := by
  have hbias : (Format.binary64.exponentBias : Int) = 1023 := by decide
  have hfield : (BitVec.ofNat 11 b).toNat = b := by
    rw [BitVec.toNat_ofNat, Nat.mod_eq_of_lt (by omega)]
  have hnotFull := ofNat_ne_full hb'
  have hnotZero : BitVec.ofNat 11 b ≠ 0#11 := by
    intro h
    have hvalue := congrArg BitVec.toNat h
    rw [hfield] at hvalue
    have hzero : (0#11).toNat = 0 := by decide
    omega
  have hmantissa : (1#1 ++ BitVec.ofNat 52 m).toNat = m := by
    rw [toNat_implied, BitVec.toNat_ofNat]
    omega
  simp only [unpack, unpackExponent_packComponents, unpackMantissa_packComponents, unpackSign_packComponents,
    Sign.ofBitVec_toBitVec, hnotFull, hnotZero, ↓reduceIte]
  refine finite_congr s hmantissa ?_
  rw [hfield, hbias]
  omega

/-- An exponent field that is zero, and a mantissa as it is. -/
private theorem unpack_subnormal (s : Sign) {m : Nat} (hm : 0 < m) (hhigh : m < 2 ^ 52) :
    unpack .binary64 (packComponents .binary64 s (0#11) (.ofNat 52 m)) = .finite s m (-1074) hm := by
  have hfield : (BitVec.ofNat 52 m).toNat = m := by rw [BitVec.toNat_ofNat, Nat.mod_eq_of_lt hhigh]
  have hnotZero : BitVec.ofNat 52 m ≠ 0#52 := by
    intro h
    have hvalue := congrArg BitVec.toNat h
    rw [hfield] at hvalue
    have hzero : (0#52).toNat = 0 := by decide
    omega
  have hnotFull : (0#11 : BitVec 11) ≠ -1#11 := by decide
  simp only [unpack, unpackExponent_packComponents, unpackMantissa_packComponents, unpackSign_packComponents,
    Sign.ofBitVec_toBitVec, hnotFull, hnotZero, ↓reduceIte, ↓reduceDIte]
  refine finite_congr s hfield ?_
  decide

theorem parts_pack_finite (s : Sign) {m : Nat} {e : Int} (h : Canonical m e) :
    parts (.ofModel (.pack (.finite s m e h.pos))) = .finite s m e h.pos := by
  obtain ⟨hpos, hle, hcases⟩ := canonical_iff.1 h
  have hbias : (Format.binary64.exponentBias : Int) = 1023 := by decide
  have hbits : Format.binary64.mantissaBits = 53 := by decide
  have hlow : -1074 ≤ e := by omega
  have hfield : (e + Format.binary64.exponentBias + Format.binary64.mantissaBitsWithoutImplicit).toNat =
      (e + 1075).toNat := by
    have hfraction : (Format.binary64.mantissaBitsWithoutImplicit : Int) = 52 := rfl
    omega
  have hrange : ¬ 2 ^ 11 ≤ (e + 1075).toNat + 1 := by omega
  have hlt : ∀ n, m.log2 < n → m < 2 ^ n := fun n hn => Nat.lt_log2_self.trans_le (Nat.pow_le_pow_right (by decide) hn)
  show unpack .binary64 (UnpackedFloat.pack .binary64 (.finite s m e h.pos)) = _
  rcases hcases with ⟨hlog, -⟩ | ⟨hlog, rfl⟩
  · have hfull : 2 ^ 52 ≤ m := hlog ▸ Nat.log2_self_le hpos.ne'
    have hnormal : m.log2 + 1 = Format.binary64.mantissaBits := by omega
    have hpack : UnpackedFloat.pack .binary64 (.finite s m e h.pos) =
        packComponents .binary64 s (.ofNat 11 (e + 1075).toNat) (.ofNat 52 m) := by
      rw [UnpackedFloat.pack, hfield, if_neg hrange, if_pos hnormal]
    rw [hpack, unpack_normal s hpos hfull (hlt 53 (by omega)) (by omega) (by omega)]
    exact finite_congr s rfl (by omega)
  · have hsubnormal : ¬ m.log2 + 1 = Format.binary64.mantissaBits := by omega
    rw [UnpackedFloat.pack, hfield, if_neg hrange, if_neg hsubnormal]
    exact unpack_subnormal s hpos (hlt 52 hlog)

theorem parts_pack_zero (s : Sign) : parts (.ofModel (.pack (.zero s))) = .zero s := by
  show unpack .binary64 (packedZero .binary64 s) = .zero s
  exact unpack_packedZero

theorem canonical_of_parts {x : Float} {s : Sign} {m : Nat} {e : Int} {hm : 0 < m} (h : parts x = .finite s m e hm) :
    Canonical m e := by
  change unpack .binary64 x.toModel.toBits.toBitVec = _ at h
  generalize x.toModel.toBits.toBitVec = b at h
  have hbias : (Format.binary64.exponentBias : Int) = 1023 := by decide
  have hexponent : (@unpackExponent .binary64 b).toNat < 2 ^ 11 := BitVec.isLt _
  have hmantissa : (@unpackMantissa .binary64 b).toNat < 2 ^ 52 := BitVec.isLt _
  rw [canonical_iff]
  simp only [unpack, hbias] at h
  split at h
  · split at h <;> simp at h
  · rename_i hnotFull
    have hlt : (@unpackExponent .binary64 b).toNat ≠ 2047 := by
      intro heq
      exact hnotFull (BitVec.eq_of_toNat_eq heq)
    split at h
    · rename_i hzero
      split at h
      · simp at h
      · obtain ⟨-, rfl, rfl⟩ := UnpackedFloat.finite.inj h
        have hlog := (Nat.log2_lt hm.ne').2 hmantissa
        rw [hzero]
        refine ⟨hm, by decide, Or.inr ⟨hlog, by decide⟩⟩
    · rename_i hnotZero
      obtain ⟨-, rfl, rfl⟩ := UnpackedFloat.finite.inj h
      have hpos : (@unpackExponent .binary64 b).toNat ≠ 0 := fun heq => hnotZero (BitVec.eq_of_toNat_eq heq)
      have hlog : (1#1 ++ @unpackMantissa .binary64 b).toNat.log2 = 52 := by
        rw [Nat.log2_eq_iff hm.ne', toNat_implied]
        omega
      have hfraction : ((Format.binary64.mantissaBitsWithoutImplicit : Nat) : Int) = 52 := rfl
      refine ⟨hm, ?_, Or.inl ⟨hlog, ?_⟩⟩
      · omega
      · omega

theorem isFinite_iff {x : Float} :
    x.isFinite = true ↔ (∃ s, parts x = .zero s) ∨ ∃ s m e hm, parts x = .finite s m e hm := by
  show (parts x).isFinite = true ↔ _
  rcases parts x with s | _ | s | ⟨s, m, e, hm⟩ <;> simp [UnpackedFloat.isFinite]
  exact hm

end CellGraph.Binary64
