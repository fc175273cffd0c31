/-!
# The encoding of doubles

Doubles are modelled in core by their sixty-four bits, which operations unpack and pack. Here: the
bits of every double that is a number survive that.

Results:
* `pack_unpack`: a pattern that is not a NaN is packed as it was.
* `isFinite_unpack`: the finite ones are those below the pattern of infinity.
* `isNaN_unpack`: the NaNs are those above it.
* `toBits_ofBits`, `ofBits_toBits`: such patterns and their doubles correspond.
-/
-- Powers of natural numbers are those of core everywhere, whatever else is imported.
attribute [default_instance 20000, instance (20000)] instPowNat

namespace Reckoner.Encoding
open Float.Model Float.Model.UnpackedFloat

abbrev Bits := BitVec Format.binary64.numBits

theorem toNat_packComponents (s : Sign) (e : BitVec 11) (m : BitVec 52) :
    (packComponents Format.binary64 s e m).toNat =
      s.toBitVec.toNat * 2 ^ 63 + e.toNat * 2 ^ 52 + m.toNat := by
  have he := e.isLt
  have hm := m.isLt
  unfold packComponents
  rw [BitVec.toNat_append, BitVec.toNat_append, ← Nat.shiftLeft_add_eq_or_of_lt hm,
    ← Nat.shiftLeft_add_eq_or_of_lt he]
  simp only [Nat.shiftLeft_eq]
  omega

theorem toNat_unpackMantissa (b : Bits) : (unpackMantissa b).toNat = b.toNat % 2 ^ 52 := by
  simp [unpackMantissa]

theorem toNat_unpackExponent (b : Bits) :
    (unpackExponent b).toNat = b.toNat / 2 ^ 52 % 2 ^ 11 := by
  simp [unpackExponent, Nat.shiftRight_eq_div_pow]

theorem toNat_unpackSign (b : Bits) : (unpackSign b).toNat = b.toNat / 2 ^ 63 := by
  have : b.toNat < 2 ^ 64 := b.isLt
  show ((b.extractLsb 63 63).cast rfl : BitVec 1).toNat = _
  rw [BitVec.toNat_cast, BitVec.extractLsb_toNat, Nat.shiftRight_eq_div_pow]
  omega

theorem toBitVec_ofBitVec (v : BitVec 1) : (Sign.ofBitVec v).toBitVec = v := by
  revert v; decide

/-- Sign, exponent and mantissa make up the pattern. -/
theorem packComponents_unpack (b : Bits) :
    packComponents Format.binary64 (Sign.ofBitVec (unpackSign b)) (unpackExponent b)
      (unpackMantissa b) = b := by
  have : b.toNat < 2 ^ 64 := b.isLt
  apply BitVec.eq_of_toNat_eq
  rw [toNat_packComponents, toBitVec_ofBitVec, toNat_unpackSign, toNat_unpackExponent,
    toNat_unpackMantissa]
  omega

theorem log2_lt_of_lt {n k : Nat} (h : n < 2 ^ k) (hk : 0 < k) : n.log2 < k := by
  by_cases h0 : n = 0
  · subst h0; simpa using hk
  · exact (Nat.log2_lt h0).2 h

/-! ## Packing and unpacking -/

theorem pack_infinity (s : Sign) :
    UnpackedFloat.pack Format.binary64 (.infinity s) =
      packComponents Format.binary64 s (-1#11) 0#52 := rfl

theorem pack_zero (s : Sign) :
    UnpackedFloat.pack Format.binary64 (.zero s) =
      packComponents Format.binary64 s 0#11 0#52 := rfl

/-- The exponent decides on infinity, and the leading bit on the exponent field. -/
theorem pack_finite (s : Sign) (m : Nat) (e : Int) (h : 0 < m) :
    UnpackedFloat.pack Format.binary64 (.finite s m e h) =
      if 2 ^ 11 ≤ (e + 1023 + 52).toNat + 1 then packComponents Format.binary64 s (-1#11) 0#52
      else if m.log2 + 1 = 53 then
        packComponents Format.binary64 s (BitVec.ofNat 11 (e + 1023 + 52).toNat) (BitVec.ofNat 52 m)
      else packComponents Format.binary64 s 0#11 (BitVec.ofNat 52 m) := rfl

/-- The leading bit of a significand is not stored. -/
theorem toNat_significand (m : BitVec 52) : (1#1 ++ m).toNat = 2 ^ 52 + m.toNat := by
  rw [BitVec.toNat_append, ← Nat.shiftLeft_add_eq_or_of_lt m.isLt]
  rfl

theorem unpack_eq (b : Bits) :
    UnpackedFloat.unpack Format.binary64 b =
      if unpackExponent b = -1#11 then
        if unpackMantissa b = 0#52 then .infinity (Sign.ofBitVec (unpackSign b)) else .notANumber
      else if unpackExponent b = 0#11 then
        if h : unpackMantissa b = 0#52 then .zero (Sign.ofBitVec (unpackSign b))
        else .finite (Sign.ofBitVec (unpackSign b)) (unpackMantissa b).toNat
          ((unpackExponent b).toNat - (1023 + 52) + 1)
          (Nat.pos_of_ne_zero fun e => h (BitVec.eq_of_toNat_eq e))
      else .finite (Sign.ofBitVec (unpackSign b)) (1#1 ++ unpackMantissa b).toNat
        ((unpackExponent b).toNat - (1023 + 52)) (by rw [toNat_significand]; omega) := rfl

/-- A pattern that is not a NaN is kept: unpacking and packing again give it back. -/
theorem pack_unpack (b : Bits) (h : b.toNat % 2 ^ 63 ≤ 2047 * 2 ^ 52) :
    UnpackedFloat.pack Format.binary64 (UnpackedFloat.unpack Format.binary64 b) = b := by
  have hb : b.toNat < 2 ^ 64 := b.isLt
  have hm := toNat_unpackMantissa b
  have he := toNat_unpackExponent b
  have whole := packComponents_unpack b
  rw [unpack_eq]
  by_cases top : unpackExponent b = -1#11
  · have : (unpackExponent b).toNat = 2047 := by rw [top]; rfl
    have zero : unpackMantissa b = 0#52 := by
      apply BitVec.eq_of_toNat_eq; show (unpackMantissa b).toNat = 0; omega
    rw [if_pos top, if_pos zero, pack_infinity, ← top]
    rw [zero] at whole
    exact whole
  · have notTop : (unpackExponent b).toNat ≠ 2047 := fun e => top (BitVec.eq_of_toNat_eq e)
    rw [if_neg top]
    by_cases low : unpackExponent b = 0#11
    · rw [if_pos low]
      by_cases zero : unpackMantissa b = 0#52
      · rw [dif_pos zero, pack_zero]
        rw [low, zero] at whole
        exact whole
      · have small : (unpackMantissa b).toNat.log2 < 52 := log2_lt_of_lt (by omega) (by decide)
        have exponent : (((unpackExponent b).toNat : Int) - (1023 + 52) + 1 + 1023 + 52).toNat = 1 := by
          rw [low]; decide
        rw [dif_neg zero, pack_finite, exponent, if_neg (by decide), if_neg (by omega),
          BitVec.ofNat_toNat, BitVec.setWidth_eq, ← low]
        exact whole
    · have notLow : (unpackExponent b).toNat ≠ 0 := fun e => low (BitVec.eq_of_toNat_eq e)
      have bits : (2 ^ 52 + (unpackMantissa b).toNat).log2 = 52 :=
        (Nat.log2_eq_iff (by omega)).2 (by omega)
      have exponent : (((unpackExponent b).toNat : Int) - (1023 + 52) + 1023 + 52).toNat =
          (unpackExponent b).toNat := by
        omega
      have mantissa : BitVec.ofNat 52 (2 ^ 52 + (unpackMantissa b).toNat) = unpackMantissa b := by
        apply BitVec.eq_of_toNat_eq; rw [BitVec.toNat_ofNat]; omega
      rw [if_neg low, pack_finite, exponent, toNat_significand, bits, if_neg (by omega), if_pos rfl,
        mantissa, BitVec.ofNat_toNat, BitVec.setWidth_eq]
      exact whole

/-- Finite are the patterns below the one of infinity. -/
theorem isFinite_unpack (b : Bits) :
    (UnpackedFloat.unpack Format.binary64 b).isFinite = true ↔
      b.toNat % 2 ^ 63 < 2047 * 2 ^ 52 := by
  have he := toNat_unpackExponent b
  have top : unpackExponent b = -1#11 ↔ b.toNat / 2 ^ 52 % 2 ^ 11 = 2047 := by
    rw [← he]
    exact ⟨fun h => by rw [h]; rfl, fun h => BitVec.eq_of_toNat_eq h⟩
  rw [unpack_eq]
  by_cases h : unpackExponent b = -1#11
  · have : b.toNat / 2 ^ 52 % 2 ^ 11 = 2047 := top.1 h
    have infinite : ¬ b.toNat % 2 ^ 63 < 2047 * 2 ^ 52 := by omega
    rw [if_pos h]
    by_cases zero : unpackMantissa b = 0#52
    · rw [if_pos zero]
      exact ⟨fun h => Bool.noConfusion h, fun h => absurd h infinite⟩
    · rw [if_neg zero]
      exact ⟨fun h => Bool.noConfusion h, fun h => absurd h infinite⟩
  · have : b.toNat / 2 ^ 52 % 2 ^ 11 ≠ 2047 := fun e => h (top.2 e)
    have finite : b.toNat % 2 ^ 63 < 2047 * 2 ^ 52 := by omega
    rw [if_neg h]
    by_cases low : unpackExponent b = 0#11
    · rw [if_pos low]
      by_cases zero : unpackMantissa b = 0#52
      · rw [dif_pos zero]; exact ⟨fun _ => finite, fun _ => rfl⟩
      · rw [dif_neg zero]; exact ⟨fun _ => finite, fun _ => rfl⟩
    · rw [if_neg low]; exact ⟨fun _ => finite, fun _ => rfl⟩

/-- The patterns of NaNs are those above the one of infinity. -/
theorem isNaN_unpack (b : Bits) :
    (UnpackedFloat.unpack Format.binary64 b).isNaN = true ↔
      2047 * 2 ^ 52 < b.toNat % 2 ^ 63 := by
  have hb : b.toNat < 2 ^ 64 := b.isLt
  have he := toNat_unpackExponent b
  have hm := toNat_unpackMantissa b
  rw [unpack_eq]
  by_cases h : unpackExponent b = -1#11
  · have top : b.toNat / 2 ^ 52 % 2 ^ 11 = 2047 := by rw [← he, h]; rfl
    rw [if_pos h]
    by_cases zero : unpackMantissa b = 0#52
    · have : b.toNat % 2 ^ 52 = 0 := by rw [← hm, zero]; rfl
      rw [if_pos zero]
      exact ⟨fun h => Bool.noConfusion h, fun h => absurd h (by omega)⟩
    · have : b.toNat % 2 ^ 52 ≠ 0 := fun e => zero (BitVec.eq_of_toNat_eq (hm.trans e))
      rw [if_neg zero]
      exact ⟨fun _ => by omega, fun _ => rfl⟩
  · have : b.toNat / 2 ^ 52 % 2 ^ 11 ≠ 2047 := fun e => h (BitVec.eq_of_toNat_eq (he.trans e))
    have number : ¬ 2047 * 2 ^ 52 < b.toNat % 2 ^ 63 := by omega
    rw [if_neg h]
    by_cases low : unpackExponent b = 0#11
    · rw [if_pos low]
      by_cases zero : unpackMantissa b = 0#52
      · rw [dif_pos zero]; exact ⟨fun h => Bool.noConfusion h, fun h => absurd h number⟩
      · rw [dif_neg zero]; exact ⟨fun h => Bool.noConfusion h, fun h => absurd h number⟩
    · rw [if_neg low]; exact ⟨fun h => Bool.noConfusion h, fun h => absurd h number⟩

theorem toBits_ofBits {n : UInt64} (h : n.toNat % 2 ^ 63 ≤ 2047 * 2 ^ 52) :
    (Float.ofBits n).toBits = n :=
  congrArg UInt64.ofBitVec (pack_unpack n.toBitVec h)

theorem eq_of_toBits_eq {x y : Float} (h : x.toBits = y.toBits) : x = y := by
  obtain ⟨⟨a, ha⟩⟩ := x
  obtain ⟨⟨b, hb⟩⟩ := y
  have : a = b := h
  subst this
  rfl

theorem ofBits_toBits {x : Float} (h : x.toBits.toNat % 2 ^ 63 ≤ 2047 * 2 ^ 52) :
    Float.ofBits x.toBits = x :=
  eq_of_toBits_eq (toBits_ofBits h)

end Reckoner.Encoding
