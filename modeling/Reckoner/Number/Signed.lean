import Reckoner.Number.Encoding
import Reckoner.Number.Magnitude
/-!
# Doubles as signed magnitudes

A double that is not a NaN is a sign and a magnitude. The sign is kept apart from the value: zero
has one too.

Results:
* `ofFloat?_toFloat`, `toFloat_of_ofFloat?`: the doubles that are numbers are the signed magnitudes.
* `isFinite_eq`: a double is finite exactly if its magnitude is.
* `isNaN_eq`: the doubles without a magnitude are the NaNs.
-/
namespace Reckoner

/-- A double other than a NaN. -/
structure Signed where
  negative : Bool
  magnitude : Magnitude
deriving DecidableEq

namespace Signed

/-- The encoding: the sign in front of the sixty-three bits of the magnitude. -/
def bits (x : Signed) : Nat :=
  (if x.negative then 2 ^ 63 else 0) + x.magnitude.pattern

def toFloat (x : Signed) : Float := Float.ofBits (UInt64.ofNat x.bits)

/-- Sign and magnitude of a double; a NaN has none. -/
def ofFloat? (x : Float) : Option Signed :=
  let bits := x.toBits.toNat
  if h : bits % 2 ^ 63 ≤ 2047 * 2 ^ 52 then some ⟨2 ^ 63 ≤ bits, bits % 2 ^ 63, h⟩ else none

theorem bits_mod (x : Signed) : x.bits % 2 ^ 63 = x.magnitude.pattern := by
  have := x.magnitude.pattern_le
  unfold bits; split <;> omega

theorem le_bits (x : Signed) : decide (2 ^ 63 ≤ x.bits) = x.negative := by
  have := x.magnitude.pattern_le
  unfold bits
  split
  · rename_i h; rw [h, decide_eq_true_eq]; omega
  · rename_i h; rw [Bool.eq_false_iff.2 h, decide_eq_false_iff_not]; omega

theorem toBits_toFloat (x : Signed) : x.toFloat.toBits.toNat = x.bits := by
  have lt : x.bits < 2 ^ 64 := by
    have := x.magnitude.pattern_le
    unfold bits; split <;> omega
  have eq : (UInt64.ofNat x.bits).toNat = x.bits := by
    rw [UInt64.toNat_ofNat']; exact Nat.mod_eq_of_lt lt
  have := x.magnitude.pattern_le
  rw [toFloat, Encoding.toBits_ofBits (by rw [eq, bits_mod]; exact this), eq]

theorem ofFloat?_toFloat (x : Signed) : ofFloat? x.toFloat = some x := by
  have := x.magnitude.pattern_le
  simp only [ofFloat?, toBits_toFloat, bits_mod, le_bits]
  rw [dif_pos this]

theorem toFloat_of_ofFloat? {x : Float} {s : Signed} (h : ofFloat? x = some s) : s.toFloat = x := by
  simp only [ofFloat?] at h
  split at h
  · rename_i le
    cases h
    have whole : bits ⟨decide (2 ^ 63 ≤ x.toBits.toNat), x.toBits.toNat % 2 ^ 63, le⟩ =
        x.toBits.toNat := by
      have := x.toBits.toNat_lt
      unfold bits; simp only [decide_eq_true_eq]; split <;> omega
    rw [toFloat, whole, UInt64.ofNat_toNat]
    exact Encoding.ofBits_toBits le
  · cases h

theorem toFloat_injective {x y : Signed} (h : x.toFloat = y.toFloat) : x = y := by
  have := congrArg ofFloat? h
  rw [ofFloat?_toFloat, ofFloat?_toFloat] at this
  exact Option.some.inj this

theorem isFinite_eq (x : Float) :
    x.isFinite = (ofFloat? x).any fun s => s.magnitude.isFinite := by
  rw [Bool.eq_iff_iff]
  refine (Encoding.isFinite_unpack x.toBits.toBitVec).trans ?_
  rw [show BitVec.toNat x.toBits.toBitVec = x.toBits.toNat from rfl, ofFloat?]
  split
  · simp [Magnitude.isFinite]
  · rename_i h
    simp only [Option.any_none, Bool.false_eq_true, iff_false]
    omega

theorem isNaN_eq (x : Float) : x.isNaN = (ofFloat? x).isNone := by
  rw [Bool.eq_iff_iff]
  refine (Encoding.isNaN_unpack x.toBits.toBitVec).trans ?_
  rw [show BitVec.toNat x.toBits.toBitVec = x.toBits.toNat from rfl, ofFloat?]
  split
  · simp only [Option.isNone_some, Bool.false_eq_true, iff_false]
    omega
  · simp only [Option.isNone_none, iff_true]
    omega

end Signed

end Reckoner
