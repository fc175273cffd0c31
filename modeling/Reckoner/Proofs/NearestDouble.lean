import Reckoner.Number.Decimal
import Reckoner.Proofs.Rounding
/-!
# The double nearest to a number

What it means that a double is the nearest one to a rational number: no finite double is nearer, of
two equally near ones it is the one with the even significand, and from halfway to the first power of
two that has no double on, it is infinite. Values of doubles are taken from core, which unpacks them.

Results:
* `exactValue_toFloat`: the value of a signed magnitude is its number of steps.
* `RoundsTo.unique`: there is only one nearest double.
* `roundsTo_nearest`: rounding a quotient gives it.
* `neg_toFloat`: the negative of a double has the other sign, also for zero.
-/
namespace Reckoner
open Float.Model Float.Model.UnpackedFloat

/-- A significand times a power of two. -/
def unpackedValue : UnpackedFloat → ℚ
  | .finite .positive m e _ => m * 2 ^ e
  | .finite .negative m e _ => -(m * 2 ^ e)
  | _ => 0

/-- The value of a finite double, which core unpacks into sign, significand and exponent. -/
def exactValue (x : Float) : ℚ := unpackedValue x.toModel.unpack

/-- Halfway between the largest finite double and `2^1024`. -/
def overflowBound : ℚ := 2 ^ 1024 - 2 ^ 970

/-- The double is the one nearest to the number, which is not negative. A significand is even if
the bits of the double are. -/
structure RoundsTo (q : ℚ) (x : Float) : Prop where
  isNumber : x.isNaN = false
  positive : x.toBits.toNat < 2 ^ 63
  isFinite_iff : x.isFinite = true ↔ q < overflowBound
  nearest : x.isFinite = true → ∀ y : Float, y.isFinite = true →
    |q - exactValue x| ≤ |q - exactValue y|
  even : x.isFinite = true → ∀ y : Float, y.isFinite = true → exactValue y ≠ exactValue x →
    |q - exactValue y| = |q - exactValue x| → x.toBits.toNat % 2 = 0

/-! ## Signed magnitudes as core has them -/

namespace Signed

/-- The sixty-four bits of a signed magnitude. -/
def pattern (s : Signed) : Encoding.Bits := s.toFloat.toBits.toBitVec

theorem toNat_pattern (s : Signed) : s.pattern.toNat = s.bits := toBits_toFloat s

theorem unpack_toFloat (s : Signed) :
    s.toFloat.toModel.unpack = UnpackedFloat.unpack Format.binary64 s.pattern := rfl

theorem toNat_unpackExponent (s : Signed) :
    (unpackExponent s.pattern).toNat = s.magnitude.pattern / 2 ^ 52 := by
  have le := s.magnitude.pattern_le
  have low := s.bits_mod
  rw [Encoding.toNat_unpackExponent, toNat_pattern]
  omega

theorem toNat_unpackMantissa (s : Signed) :
    (unpackMantissa s.pattern).toNat = s.magnitude.pattern % 2 ^ 52 := by
  have low := s.bits_mod
  rw [Encoding.toNat_unpackMantissa, toNat_pattern]
  omega

/-- Core has the same sign for it. -/
def sign (s : Signed) : Sign := if s.negative then .negative else .positive

theorem ofBitVec_unpackSign (s : Signed) : Sign.ofBitVec (unpackSign s.pattern) = s.sign := by
  obtain ⟨negative, m⟩ := s
  have le := m.pattern_le
  have bit : (unpackSign (pattern ⟨negative, m⟩)).toNat = bits ⟨negative, m⟩ / 2 ^ 63 := by
    rw [Encoding.toNat_unpackSign, toNat_pattern]
  cases negative with
  | false =>
    have zero : unpackSign (pattern ⟨false, m⟩) = 0#1 := by
      apply BitVec.eq_of_toNat_eq
      rw [bit]
      simp [bits]
      omega
    rw [zero]
    rfl
  | true =>
    have one : unpackSign (pattern ⟨true, m⟩) = 1#1 := by
      apply BitVec.eq_of_toNat_eq
      rw [bit]
      simp [bits]
      omega
    rw [one]
    rfl

theorem finite_congr {sign : Sign} {m n : Nat} {d e : Int} {hm : 0 < m} {hn : 0 < n} (h : m = n)
    (he : d = e) : UnpackedFloat.finite sign m d hm = .finite sign n e hn := by
  subst h he
  rfl

/-- What core makes of the bits of a signed magnitude. -/
theorem unpack_pattern (s : Signed) :
    UnpackedFloat.unpack Format.binary64 s.pattern =
      if s.magnitude.pattern = 2047 * 2 ^ 52 then .infinity s.sign
      else if s.magnitude.pattern < 2 ^ 52 then
        if h : s.magnitude.pattern = 0 then .zero s.sign
        else .finite s.sign s.magnitude.pattern (-(Magnitude.stepExponent : Int))
          (Nat.pos_of_ne_zero h)
      else .finite s.sign (2 ^ 52 + s.magnitude.pattern % 2 ^ 52)
        ((s.magnitude.pattern / 2 ^ 52 - 1 : Nat) - (Magnitude.stepExponent : Int)) (by omega) := by
  have le := s.magnitude.pattern_le
  have he := s.toNat_unpackExponent
  have hm := s.toNat_unpackMantissa
  have top : unpackExponent s.pattern = -1#11 ↔ s.magnitude.pattern / 2 ^ 52 = 2047 := by
    rw [← he]
    exact ⟨fun h => by rw [h]; rfl, fun h => BitVec.eq_of_toNat_eq h⟩
  have low : unpackExponent s.pattern = 0#11 ↔ s.magnitude.pattern / 2 ^ 52 = 0 := by
    rw [← he]
    exact ⟨fun h => by rw [h]; rfl, fun h => BitVec.eq_of_toNat_eq h⟩
  have none : unpackMantissa s.pattern = 0#52 ↔ s.magnitude.pattern % 2 ^ 52 = 0 := by
    rw [← hm]
    exact ⟨fun h => by rw [h]; rfl, fun h => BitVec.eq_of_toNat_eq h⟩
  rw [Encoding.unpack_eq, ofBitVec_unpackSign]
  by_cases infinite : s.magnitude.pattern = 2047 * 2 ^ 52
  · rw [if_pos (top.2 (by omega)), if_pos (none.2 (by omega)), if_pos infinite]
  · rw [if_neg (mt top.1 (by omega)), if_neg infinite]
    by_cases few : s.magnitude.pattern < 2 ^ 52
    · have field : s.magnitude.pattern / 2 ^ 52 = 0 := by omega
      rw [if_pos (low.2 field), if_pos few]
      by_cases zero : s.magnitude.pattern = 0
      · rw [dif_pos (none.2 (by omega)), dif_pos zero]
      · rw [dif_neg (mt none.1 (by omega)), dif_neg zero]
        refine finite_congr (by omega) ?_
        rw [he, field]
        rfl
    · rw [if_neg (mt low.1 (by omega)), if_neg few]
      refine finite_congr ?_ ?_
      · rw [Encoding.toNat_significand, hm]
      · rw [he, Magnitude.stepExponent]
        omega

end Signed

/-! ## Values -/

namespace Magnitude

/-- The value of a finite magnitude. -/
def value (m : Magnitude) : ℚ := m.units / one

theorem value_nonneg (m : Magnitude) : 0 ≤ m.value := by
  unfold value
  positivity

theorem cast_two_pow (k : Nat) : ((2 ^ k : Nat) : ℚ) = 2 ^ k := Nat.cast_pow 2 k

/-- A number of steps, as a significand with an exponent. -/
theorem units_div_one (sig k : Nat) :
    ((sig * 2 ^ k : Nat) : ℚ) / one = sig * 2 ^ ((k : Int) - stepExponent) := by
  have cast : (one : ℚ) = 2 ^ stepExponent := cast_two_pow stepExponent
  rw [cast, zpow_sub₀ two_ne_zero, zpow_natCast, zpow_natCast]
  push_cast
  ring

theorem value_of_lt {m : Magnitude} (h : m.pattern < 2 ^ 52) :
    m.value = m.pattern * 2 ^ (-(stepExponent : Int)) := by
  have := units_div_one m.pattern 0
  rw [Nat.pow_zero, Nat.mul_one, Nat.cast_zero, zero_sub] at this
  rw [value, units, if_pos h, this]

theorem value_of_le {m : Magnitude} (h : ¬ m.pattern < 2 ^ 52) :
    m.value = (2 ^ 52 + m.pattern % 2 ^ 52 : Nat) *
      2 ^ ((m.pattern / 2 ^ 52 - 1 : Nat) - (stepExponent : Int)) := by
  rw [value, units, if_neg h, units_div_one]

end Magnitude

namespace Signed

def value (s : Signed) : ℚ := if s.negative then -s.magnitude.value else s.magnitude.value

theorem unpackedValue_finite (s : Signed) {m : Nat} (e : Int) (h : 0 < m) :
    unpackedValue (.finite s.sign m e h) =
      if s.negative then -((m : ℚ) * 2 ^ e) else (m : ℚ) * 2 ^ e := by
  unfold sign
  cases s.negative <;> rfl

/-- **The value of a finite double** is that of its sign and magnitude. -/
theorem exactValue_toFloat {s : Signed} (h : s.magnitude.isFinite = true) :
    exactValue s.toFloat = s.value := by
  have finite : s.magnitude.pattern ≠ 2047 * 2 ^ 52 := Nat.ne_of_lt (Magnitude.isFinite_iff.1 h)
  rw [exactValue, unpack_toFloat, unpack_pattern, if_neg finite, value]
  by_cases few : s.magnitude.pattern < 2 ^ 52
  · rw [if_pos few, Magnitude.value_of_lt few]
    by_cases none : s.magnitude.pattern = 0
    · rw [dif_pos none, none]
      show (0 : ℚ) = _
      simp
    · rw [dif_neg none, unpackedValue_finite]
  · rw [if_neg few, Magnitude.value_of_le few, unpackedValue_finite]

theorem isFinite_toFloat (s : Signed) : s.toFloat.isFinite = s.magnitude.isFinite := by
  rw [isFinite_eq, ofFloat?_toFloat]
  rfl

/-- Without a sign, the bits are the pattern. -/
theorem toBits_positive (m : Magnitude) : (toFloat ⟨false, m⟩).toBits.toNat = m.pattern := by
  rw [toBits_toFloat]
  simp [bits]

theorem isNaN_toFloat (s : Signed) : s.toFloat.isNaN = false := by
  rw [isNaN_eq, ofFloat?_toFloat]
  rfl

theorem exists_of_isFinite {x : Float} (h : x.isFinite = true) :
    ∃ s : Signed, x = s.toFloat ∧ s.magnitude.isFinite = true := by
  rw [isFinite_eq] at h
  obtain ⟨s, hs⟩ := Option.isSome_iff_exists.1 (Option.isSome_of_any h)
  rw [hs] at h
  exact ⟨s, (toFloat_of_ofFloat? hs).symm, h⟩

/-- A double without a sign, if it is a number, is a magnitude. -/
theorem exists_of_positive {x : Float} (h : x.isNaN = false) (hx : x.toBits.toNat < 2 ^ 63) :
    ∃ m : Magnitude, x = toFloat ⟨false, m⟩ := by
  rw [isNaN_eq, Option.isNone_eq_false_iff] at h
  obtain ⟨s, hs⟩ := Option.isSome_iff_exists.1 h
  have same := toFloat_of_ofFloat? hs
  rw [← same, toBits_toFloat] at hx
  have sign := s.le_bits
  obtain ⟨negative, m⟩ := s
  have positive : negative = false := sign.symm.trans (decide_eq_false (by omega))
  subst positive
  exact ⟨m, same.symm⟩

/-- **The negative of a double** has the other sign, also if it is zero. -/
theorem neg_toFloat (m : Magnitude) : -toFloat ⟨false, m⟩ = toFloat ⟨true, m⟩ := by
  have negated : (UnpackedFloat.unpack Format.binary64 (pattern ⟨false, m⟩)).neg =
      UnpackedFloat.unpack Format.binary64 (pattern ⟨true, m⟩) := by
    rw [unpack_pattern, unpack_pattern]
    by_cases infinite : m.pattern = 2047 * 2 ^ 52
    · rw [if_pos infinite, if_pos infinite]
      rfl
    · rw [if_neg infinite, if_neg infinite]
      by_cases few : m.pattern < 2 ^ 52
      · rw [if_pos few, if_pos few]
        by_cases none : m.pattern = 0
        · rw [dif_pos none, dif_pos none]
          rfl
        · rw [dif_neg none, dif_neg none]
          rfl
      · rw [if_neg few, if_neg few]
        rfl
  have number : (pattern ⟨true, m⟩).toNat % 2 ^ 63 ≤ 2047 * 2 ^ 52 := by
    rw [toNat_pattern, bits_mod]
    exact m.pattern_le
  apply Encoding.eq_of_toBits_eq
  show UInt64.ofBitVec (UnpackedFloat.pack Format.binary64
    (UnpackedFloat.unpack Format.binary64 (pattern ⟨false, m⟩)).neg) = _
  rw [negated, Encoding.pack_unpack _ number]
  rfl

end Signed

/-! ## Rounding -/

namespace Magnitude

/-- Half of the last place of the largest finite magnitude is this power of two. -/
def halfPlace : Nat := 970

/-- The bound, counted in halves of the last place. -/
def boundary : Nat := (2 ^ 54 - 1) * 2 ^ halfPlace

theorem cast_boundary : (boundary : ℚ) = overflowBound := by
  have significand : ((2 ^ 54 - 1 : Nat) : ℚ) = 2 ^ 54 - 1 := by norm_num
  have next : (2 : ℚ) ^ 1024 = 2 ^ 54 * 2 ^ halfPlace := pow_add 2 54 halfPlace
  rw [boundary, Nat.cast_mul, significand, cast_two_pow, overflowBound, next, sub_mul, one_mul]
  rfl

theorem nearest_pattern (num den : Nat) :
    (nearest num den).pattern = min (roundedPattern (num * one) den) (2047 * 2 ^ 52) := rfl

/-- Infinite is what is at least halfway to the first power of two that has no double. -/
theorem isFinite_nearest_iff {num den : Nat} (hd : 0 < den) :
    (nearest num den).isFinite = true ↔ (num : ℚ) / den < overflowBound := by
  have pos : (0 : ℚ) < den := by exact_mod_cast hd
  have top : (halfPlace + stepExponent + 3) * 2 ^ 52 = 2047 * 2 ^ 52 := rfl
  have steps : (2 ^ 54 - 1) * 2 ^ (halfPlace + stepExponent) * den = boundary * den * one := by
    rw [Nat.pow_add, ← Nat.mul_assoc, Nat.mul_right_comm, boundary, one]
  have reaches := @le_roundedPattern_iff (num * one) _ hd (halfPlace + stepExponent)
  rw [top, steps, Nat.mul_le_mul_right_iff one_pos] at reaches
  have quotient : (num : ℚ) / den < overflowBound ↔ num < boundary * den := by
    rw [← cast_boundary, div_lt_iff₀ pos]
    exact_mod_cast Iff.rfl
  have pattern := nearest_pattern num den
  rw [quotient, ← Nat.not_le, ← reaches, isFinite_iff]
  omega

theorem pattern_of_isFinite {num den : Nat} (h : (nearest num den).isFinite = true) :
    (nearest num den).pattern = roundedPattern (num * one) den := by
  have pattern := nearest_pattern num den
  rw [isFinite_iff] at h
  omega

/-- Distances, counted in steps. -/
theorem dist_value {num den : Nat} (m : Magnitude) :
    |(num : ℚ) / den - m.value| = |((num * one : Nat) : ℚ) / den - unitsOf m.pattern| / one := by
  have pos : (0 : ℚ) < one := by exact_mod_cast one_pos
  have factor : (num : ℚ) / den - m.value =
      (((num * one : Nat) : ℚ) / den - unitsOf m.pattern) / one := by
    rw [value, units_eq, sub_div, Nat.cast_mul, div_right_comm, mul_div_assoc, div_self pos.ne',
      mul_one]
  rw [factor, abs_div, abs_of_pos pos]

theorem eq_of_pattern_eq {m n : Magnitude} (h : m.pattern = n.pattern) : m = n := by
  cases m
  cases n
  cases h
  rfl

theorem value_zero : value ⟨0, Nat.zero_le _⟩ = 0 := by
  have none : units ⟨0, Nat.zero_le _⟩ = 0 := rfl
  rw [value, none, Nat.cast_zero, zero_div]

theorem value_lt {m n : Magnitude} (h : m.pattern < n.pattern) : m.value < n.value := by
  have pos : (0 : ℚ) < one := by exact_mod_cast one_pos
  have steps : (unitsOf m.pattern : ℚ) < unitsOf n.pattern := by
    exact_mod_cast strictMono_unitsOf h
  rw [value, value, units_eq, units_eq]
  exact div_lt_div_of_pos_right steps pos

/-- No finite magnitude is nearer than the rounded one, and if another is as near, it is even. -/
theorem nearest_le {num den : Nat} (hd : 0 < den) (h : (nearest num den).isFinite = true)
    (n : Magnitude) :
    |(num : ℚ) / den - (nearest num den).value| ≤ |(num : ℚ) / den - n.value| ∧
      (n ≠ nearest num den →
        |(num : ℚ) / den - n.value| = |(num : ℚ) / den - (nearest num den).value| →
        (nearest num den).pattern % 2 = 0) := by
  have pos : (0 : ℚ) < one := by exact_mod_cast one_pos
  obtain ⟨near, even⟩ := @roundedPattern_nearest (num * one) _ hd n.pattern
  rw [← pattern_of_isFinite h] at near even
  rw [dist_value, dist_value]
  refine ⟨div_le_div_of_nonneg_right near pos.le, fun hn tie => even ?_ ?_⟩
  · exact fun same => hn (eq_of_pattern_eq same)
  · exact (div_left_inj' pos.ne').1 tie

end Magnitude

/-! ## The nearest double -/

open Magnitude (nearest)

/-- What is on the other side of zero is no nearer. -/
theorem dist_neg_le {q v : ℚ} (hq : 0 ≤ q) (hv : 0 ≤ v) : |q - v| ≤ |q - -v| := by
  rw [sub_neg_eq_add, abs_of_nonneg (by linarith : 0 ≤ q + v)]
  exact abs_le.2 ⟨by linarith, by linarith⟩

/-- It is as near only if both are zero, if zero is no nearer. -/
theorem neg_eq_of_dist_eq {q v : ℚ} (hq : 0 ≤ q) (hv : 0 ≤ v) (tie : |q - -v| = |q - v|)
    (zero : |q - v| ≤ |q|) : -v = v := by
  rw [sub_neg_eq_add, abs_of_nonneg (by linarith : 0 ≤ q + v)] at tie
  rw [← tie, abs_of_nonneg hq] at zero
  linarith

theorem exactValue_magnitude {m : Magnitude} (h : m.isFinite = true) :
    exactValue (Signed.toFloat ⟨false, m⟩) = m.value :=
  @Signed.exactValue_toFloat ⟨false, m⟩ h

/-- **Rounding a quotient** gives the double that is nearest to it. -/
theorem roundsTo_nearest {num den : Nat} (hd : 0 < den) :
    RoundsTo ((num : ℚ) / den) (Signed.toFloat ⟨false, nearest num den⟩) := by
  have nonneg : (0 : ℚ) ≤ (num : ℚ) / den := by positivity
  have bits := Signed.toBits_positive (nearest num den)
  have le := (nearest num den).pattern_le
  refine ⟨Signed.isNaN_toFloat _, by omega, ?_, ?_, ?_⟩
  · rw [Signed.isFinite_toFloat]
    exact Magnitude.isFinite_nearest_iff hd
  · intro hx y hy
    rw [Signed.isFinite_toFloat] at hx
    obtain ⟨s, rfl, hs⟩ := Signed.exists_of_isFinite hy
    obtain ⟨near, -⟩ := Magnitude.nearest_le hd hx s.magnitude
    have mirror := dist_neg_le nonneg s.magnitude.value_nonneg
    rw [exactValue_magnitude hx, Signed.exactValue_toFloat hs, Signed.value]
    split
    · exact near.trans mirror
    · exact near
  · intro hx y hy other tie
    rw [Signed.isFinite_toFloat] at hx
    obtain ⟨s, rfl, hs⟩ := Signed.exists_of_isFinite hy
    obtain ⟨near, even⟩ := Magnitude.nearest_le hd hx s.magnitude
    have mirror := dist_neg_le nonneg s.magnitude.value_nonneg
    have zero := (Magnitude.nearest_le hd hx ⟨0, Nat.zero_le _⟩).1
    rw [Magnitude.value_zero, sub_zero] at zero
    rw [exactValue_magnitude hx, Signed.exactValue_toFloat hs, Signed.value] at other tie
    rw [bits]
    by_cases same : s.magnitude = nearest num den
    · -- The double on the other side of zero is as near only if both are zero.
      rw [same] at other tie
      exfalso
      cases hs : s.negative with
      | false =>
        rw [hs] at other
        exact other rfl
      | true =>
        rw [hs] at other tie
        exact other (neg_eq_of_dist_eq nonneg (nearest num den).value_nonneg tie zero)
    · refine even same ?_
      split at tie
      · exact le_antisymm (mirror.trans tie.le) near
      · exact tie

/-- What lies between two equally near numbers is nearer. -/
theorem dist_lt_of_between {q a b c : ℚ} (hab : a < b) (hbc : b < c) (tie : |q - a| = |q - c|) :
    |q - b| < |q - a| := by
  have middle : q - a = -(q - c) := by
    rcases abs_eq_abs.1 tie with same | opposite
    · linarith
    · exact opposite
  rw [abs_of_pos (by linarith : 0 < q - a)]
  exact abs_lt.2 ⟨by linarith, by linarith⟩

/-- Between two doubles that are both nearest there would be a nearer one. -/
theorem RoundsTo.pattern_le {q : ℚ} {m n : Magnitude} (hm : RoundsTo q (Signed.toFloat ⟨false, m⟩))
    (hn : RoundsTo q (Signed.toFloat ⟨false, n⟩)) (h : n.isFinite = true) :
    n.pattern ≤ m.pattern := by
  by_contra! lt
  have finite := Magnitude.isFinite_iff.1 h
  have hf : m.isFinite = true := Magnitude.isFinite_iff.2 (by omega)
  have values := Magnitude.value_lt lt
  have isFinite {k : Magnitude} (hk : k.isFinite = true) :
      (Signed.toFloat ⟨false, k⟩).isFinite = true := by
    rw [Signed.isFinite_toFloat]
    exact hk
  have tie := le_antisymm (hm.nearest (isFinite hf) _ (isFinite h))
    (hn.nearest (isFinite h) _ (isFinite hf))
  have evenM := hm.even (isFinite hf) _ (isFinite h)
  have evenN := hn.even (isFinite h) _ (isFinite hf)
  rw [exactValue_magnitude h, exactValue_magnitude hf] at tie evenM evenN
  rw [Signed.toBits_positive] at evenM evenN
  have both : m.pattern % 2 = 0 ∧ n.pattern % 2 = 0 :=
    ⟨evenM values.ne' tie.symm, evenN values.ne tie⟩
  -- Both patterns are even, so the one behind the lower is still below the upper.
  let k : Magnitude := ⟨m.pattern + 1, by omega⟩
  have hk : k.isFinite = true := Magnitude.isFinite_iff.2 (by show m.pattern + 1 < _; omega)
  have below : m.value < k.value := Magnitude.value_lt (Nat.lt_succ_self _)
  have above : k.value < n.value := Magnitude.value_lt (by show m.pattern + 1 < n.pattern; omega)
  have nearer := hm.nearest (isFinite hf) _ (isFinite hk)
  rw [exactValue_magnitude hf, exactValue_magnitude hk] at nearer
  exact absurd (dist_lt_of_between below above tie) (not_lt.2 nearer)

/-- **There is only one nearest double.** -/
theorem RoundsTo.unique {q : ℚ} {x y : Float} (hx : RoundsTo q x) (hy : RoundsTo q y) : y = x := by
  obtain ⟨m, rfl⟩ := Signed.exists_of_positive hx.isNumber hx.positive
  obtain ⟨n, rfl⟩ := Signed.exists_of_positive hy.isNumber hy.positive
  have finite := hx.isFinite_iff.trans hy.isFinite_iff.symm
  rw [Signed.isFinite_toFloat, Signed.isFinite_toFloat] at finite
  cases hm : m.isFinite with
  | true =>
    have above := hx.pattern_le hy (finite.1 hm)
    have below := hy.pattern_le hx hm
    rw [Magnitude.eq_of_pattern_eq (by omega : n.pattern = m.pattern)]
  | false =>
    have hn : n.isFinite = false := by
      rw [Bool.eq_false_iff]
      intro h
      rw [finite.2 h] at hm
      cases hm
    rw [Magnitude.eq_infinity hm, Magnitude.eq_infinity hn]

end Reckoner
