import Reckoner.Number.Signed
import Mathlib.Algebra.Order.Field.Rat
import Mathlib.Data.Nat.Cast.Order.Field
import Mathlib.Order.Monotone.Basic
import Mathlib.Tactic.FieldSimp
import Mathlib.Tactic.Linarith
import Mathlib.Tactic.Positivity
import Mathlib.Tactic.Ring
/-!
# Rounding to the nearest

Rounding is done on whole numbers of steps. A number of steps that needs more than 53 bits is rounded
to a multiple of a power of two, and the patterns of doubles count just these multiples. So a pattern
is rounded to as whole numbers are, except where the exponents end.

Results:
* `roundHalfEven_nearest`: the whole number next to a quotient.
* `roundedPattern_nearest`: the pattern next to a number of steps, of all patterns there are.
* `le_roundedPattern_iff`: which numbers of steps are rounded past the patterns of an exponent.
-/
namespace Reckoner.Magnitude

/-! ## Patterns and steps -/

/-- The number of steps that a pattern stands for, were exponents unbounded. -/
def unitsOf (p : Nat) : Nat :=
  if p < 2 ^ 52 then p else (2 ^ 52 + p % 2 ^ 52) * 2 ^ (p / 2 ^ 52 - 1)

theorem units_eq (m : Magnitude) : m.units = unitsOf m.pattern := rfl

/-- The patterns behind `s * 2^52` count the multiples of `2^s` steps. -/
theorem unitsOf_add {s r : Nat} (hi : r ≤ 2 ^ 53) (lo : s = 0 ∨ 2 ^ 52 ≤ r) :
    unitsOf (s * 2 ^ 52 + r) = r * 2 ^ s := by
  unfold unitsOf
  by_cases h : r < 2 ^ 52
  · have : s = 0 := by omega
    subst this
    simp [h]
  · rw [if_neg (by omega)]
    by_cases top : r = 2 ^ 53
    · have field : (s * 2 ^ 52 + r) / 2 ^ 52 - 1 = s + 1 := by omega
      have fraction : (s * 2 ^ 52 + r) % 2 ^ 52 = 0 := by omega
      rw [field, fraction, top, Nat.pow_succ]
      omega
    · have field : (s * 2 ^ 52 + r) / 2 ^ 52 - 1 = s := by omega
      have fraction : (s * 2 ^ 52 + r) % 2 ^ 52 = r - 2 ^ 52 := by omega
      rw [field, fraction, Nat.add_sub_of_le (by omega)]

/-- Every pattern is of that form. -/
theorem exists_add (p : Nat) :
    ∃ s r, p = s * 2 ^ 52 + r ∧ r < 2 ^ 53 ∧ (s = 0 ∨ 2 ^ 52 ≤ r) := by
  refine ⟨p / 2 ^ 52 - 1, p - (p / 2 ^ 52 - 1) * 2 ^ 52, ?_, ?_, ?_⟩ <;> omega

theorem strictMono_unitsOf : StrictMono unitsOf := by
  refine strictMono_nat_of_lt_succ fun p => ?_
  obtain ⟨s, r, rfl, hi, lo⟩ := exists_add p
  have pos := Nat.two_pow_pos s
  rw [Nat.add_assoc, unitsOf_add (by omega) lo, unitsOf_add (by omega) (by omega), Nat.add_mul]
  omega

/-- A pattern stands for a multiple of `2^s` steps, or for so few that the multiples which have
53 bits lie above. -/
theorem unitsOf_cases (p s : Nat) :
    (∃ j, unitsOf p = j * 2 ^ s) ∨ (0 < s ∧ unitsOf p < 2 ^ 52 * 2 ^ s) := by
  obtain ⟨k, r, rfl, hi, lo⟩ := exists_add p
  rw [unitsOf_add (by omega) lo]
  by_cases h : s ≤ k
  · left
    refine ⟨r * 2 ^ (k - s), ?_⟩
    rw [Nat.mul_assoc, ← Nat.pow_add, Nat.sub_add_cancel h]
  · right
    refine ⟨by omega, ?_⟩
    have more : 2 ^ s = 2 ^ (s - k - 1) * (2 * 2 ^ k) := by
      rw [← Nat.pow_succ', ← Nat.pow_add]
      congr 1
      omega
    have pos := Nat.two_pow_pos k
    have one_le := Nat.one_le_two_pow (n := s - k - 1)
    calc r * 2 ^ k < 2 ^ 53 * 2 ^ k := Nat.mul_lt_mul_of_pos_right hi pos
      _ = 2 ^ 52 * (1 * (2 * 2 ^ k)) := by omega
      _ ≤ 2 ^ 52 * 2 ^ s := by
        rw [more]
        exact Nat.mul_le_mul_left _ (Nat.mul_le_mul_right _ one_le)

/-! ## Whole numbers -/

/-- Rounding goes to the whole number below or to the one above, whichever is nearer, and from
halfway to the even one. -/
theorem roundHalfEven_cases (num den : Nat) :
    (roundHalfEven num den = num / den ∧ 2 * (num % den) ≤ den ∧
      (2 * (num % den) = den → roundHalfEven num den % 2 = 0)) ∨
    (roundHalfEven num den = num / den + 1 ∧ den ≤ 2 * (num % den) ∧
      (2 * (num % den) = den → roundHalfEven num den % 2 = 0)) := by
  unfold roundHalfEven
  simp only
  split
  · left
    omega
  · split
    · right
      omega
    · rcases Nat.mod_two_eq_zero_or_one (num / den) with even | odd
      · left
        omega
      · right
        omega

/-- The rounded number is at most a half away, and even if it is as much as that. -/
theorem dist_roundHalfEven {num den : Nat} (hd : 0 < den) :
    |(num : ℚ) / den - roundHalfEven num den| ≤ 1 / 2 ∧
      (|(num : ℚ) / den - roundHalfEven num den| = 1 / 2 → roundHalfEven num den % 2 = 0) := by
  have pos : (0 : ℚ) < den := by exact_mod_cast hd
  have whole : (den * (num / den : Nat) + (num % den : Nat) : ℚ) = num := by
    exact_mod_cast Nat.div_add_mod num den
  have rest : (num : ℚ) / den - (num / den : Nat) = (num % den : Nat) / den := by
    rw [← whole]
    field_simp
    ring
  have lt : ((num % den : Nat) : ℚ) < den := by exact_mod_cast Nat.mod_lt num hd
  have nonneg : (0 : ℚ) ≤ (num % den : Nat) / den := by positivity
  have half (h : ((num % den : Nat) : ℚ) / den = 1 / 2) : 2 * (num % den) = den := by
    rw [div_eq_div_iff pos.ne' two_ne_zero] at h
    have : ((2 * (num % den) : Nat) : ℚ) = (den : Nat) := by
      push_cast
      linarith
    exact_mod_cast this
  rcases roundHalfEven_cases num den with ⟨hr, near, even⟩ | ⟨hr, near, even⟩
  · have near : ((num % den : Nat) : ℚ) / den ≤ 1 / 2 := by
      have : ((2 * (num % den) : Nat) : ℚ) ≤ (den : Nat) := by exact_mod_cast near
      push_cast at this
      rw [div_le_div_iff₀ pos two_pos]
      linarith
    have dist : |(num : ℚ) / den - roundHalfEven num den| = (num % den : Nat) / den := by
      rw [hr, rest, abs_of_nonneg nonneg]
    rw [dist]
    exact ⟨near, fun h => even (half h)⟩
  · have near : (1 : ℚ) / 2 ≤ (num % den : Nat) / den := by
      have : ((den : Nat) : ℚ) ≤ (2 * (num % den) : Nat) := by exact_mod_cast near
      push_cast at this
      rw [div_le_div_iff₀ two_pos pos]
      linarith
    have below : ((num % den : Nat) : ℚ) / den < 1 := (div_lt_one pos).2 lt
    have dist : |(num : ℚ) / den - roundHalfEven num den| = 1 - (num % den : Nat) / den := by
      rw [hr, Nat.cast_add, Nat.cast_one, ← sub_sub, rest, abs_of_nonpos (by linarith)]
      ring
    rw [dist]
    refine ⟨by linarith, fun h => even (half (by linarith))⟩

/-- Up to an even number is rounded from halfway on. -/
theorem roundHalfEven_eq_succ_iff {num den k : Nat} (hd : 0 < den) (odd : k % 2 = 1)
    (lt : num / den < k + 1) :
    roundHalfEven num den = k + 1 ↔ 2 * (den * k) + den ≤ 2 * num := by
  have split := Nat.div_add_mod num den
  have small := Nat.mod_lt num hd
  have cases := roundHalfEven_cases num den
  generalize roundHalfEven num den = r at cases ⊢
  generalize num % den = rem at split small cases
  by_cases last : num / den = k
  · rw [last] at split cases
    generalize den * k = m at split ⊢
    omega
  · have lower : den * (num / den + 1) ≤ den * k := Nat.mul_le_mul_left _ (by omega)
    rw [Nat.mul_add, Nat.mul_one] at lower
    generalize den * k = m at lower ⊢
    omega

/-- No whole number is nearer, and another one as near only if the rounded one is even. -/
theorem roundHalfEven_nearest {num den : Nat} (hd : 0 < den) (j : Nat) :
    |(num : ℚ) / den - roundHalfEven num den| ≤ |(num : ℚ) / den - j| ∧
      (j ≠ roundHalfEven num den →
        |(num : ℚ) / den - j| = |(num : ℚ) / den - roundHalfEven num den| →
        roundHalfEven num den % 2 = 0) := by
  obtain ⟨near, even⟩ := dist_roundHalfEven hd
  generalize roundHalfEven num den = r at near even ⊢
  generalize (num : ℚ) / den = v at near even ⊢
  by_cases h : j = r
  · subst h
    exact ⟨le_refl _, fun hj => absurd rfl hj⟩
  · have apart : (1 : ℚ) ≤ |(r : ℚ) - j| := by
      have : 1 ≤ |(r : Int) - j| := Int.one_le_abs (by omega)
      exact_mod_cast this
    have triangle : |(r : ℚ) - j| ≤ |v - r| + |v - j| := by
      have := abs_sub_le (r : ℚ) v j
      rwa [abs_sub_comm (r : ℚ) v] at this
    exact ⟨by linarith, fun _ tie => even (by linarith)⟩

/-! ## Patterns -/

/-- What rounding a number of steps to 53 bits comes to. -/
structure Rounded (num den s r : Nat) : Prop where
  pattern : roundedPattern num den = s * 2 ^ 52 + r
  rounded : r = roundHalfEven num (den * 2 ^ s)
  le : r ≤ 2 ^ 53
  lo : s = 0 ∨ 2 ^ 52 ≤ r
  steps_lt : num / den < 2 ^ 53 * 2 ^ s
  le_steps : 0 < s → 2 ^ 52 * 2 ^ s ≤ num / den

theorem exists_rounded (num den : Nat) : ∃ s r, Rounded num den s r := by
  refine ⟨excess (num / den), roundHalfEven num (den * 2 ^ excess (num / den)), ?_⟩
  generalize hs : excess (num / den) = s
  have steps_lt : num / den < 2 ^ 53 * 2 ^ s := by
    rw [← Nat.pow_add]
    refine Nat.lt_of_lt_of_le Nat.lt_log2_self (Nat.pow_le_pow_right (by decide) ?_)
    unfold excess at hs
    omega
  have le_steps (pos : 0 < s) : 2 ^ 52 * 2 ^ s ≤ num / den := by
    unfold excess at hs
    have some : num / den ≠ 0 := by
      intro h
      simp [h] at hs
      omega
    rw [← Nat.pow_add, show 52 + s = (num / den).log2 by omega]
    exact Nat.log2_self_le some
  have quotient : num / (den * 2 ^ s) = num / den / 2 ^ s := (Nat.div_div_eq_div_mul _ _ _).symm
  have floor_lt : num / (den * 2 ^ s) < 2 ^ 53 := by
    rw [quotient]
    exact Nat.div_lt_of_lt_mul (by rwa [Nat.mul_comm])
  have le_floor (pos : 0 < s) : 2 ^ 52 ≤ num / (den * 2 ^ s) := by
    rw [quotient, Nat.le_div_iff_mul_le (Nat.two_pow_pos s)]
    exact le_steps pos
  refine ⟨?_, rfl, ?_, ?_, steps_lt, le_steps⟩
  · rw [roundedPattern, hs]
  · rcases roundHalfEven_cases num (den * 2 ^ s) with ⟨hr, -⟩ | ⟨hr, -⟩ <;> omega
  · rcases Nat.eq_zero_or_pos s with zero | pos
    · exact .inl zero
    · have := le_floor pos
      rcases roundHalfEven_cases num (den * 2 ^ s) with ⟨hr, -⟩ | ⟨hr, -⟩ <;> omega

theorem Rounded.unitsOf_eq {num den s r : Nat} (h : Rounded num den s r) :
    unitsOf (roundedPattern num den) = r * 2 ^ s := by
  rw [h.pattern, unitsOf_add h.le h.lo]

/-- No multiple of `2^s` steps is nearer than the rounded one. -/
theorem Rounded.nearest {num den s r : Nat} (hd : 0 < den) (h : Rounded num den s r) (j : Nat) :
    |(num : ℚ) / den - (r * 2 ^ s : Nat)| ≤ |(num : ℚ) / den - (j * 2 ^ s : Nat)| ∧
      (j ≠ r → |(num : ℚ) / den - (j * 2 ^ s : Nat)| = |(num : ℚ) / den - (r * 2 ^ s : Nat)| →
        r % 2 = 0) := by
  have pos : (0 : ℚ) < den := by exact_mod_cast hd
  have step : (0 : ℚ) < 2 ^ s := by positivity
  have scaled (k : Nat) : |(num : ℚ) / den - (k * 2 ^ s : Nat)| =
      2 ^ s * |(num : ℚ) / (den * 2 ^ s : Nat) - k| := by
    have factor : (num : ℚ) / den - (k * 2 ^ s : Nat) =
        2 ^ s * ((num : ℚ) / (den * 2 ^ s : Nat) - k) := by
      push_cast
      field_simp
    rw [factor, abs_mul, abs_of_pos step]
  obtain ⟨near, even⟩ := @roundHalfEven_nearest num _ (Nat.mul_pos hd (Nat.two_pow_pos s)) j
  rw [← h.rounded] at near even
  rw [scaled, scaled]
  refine ⟨mul_le_mul_of_nonneg_left near step.le, fun hj tie => even hj ?_⟩
  exact mul_left_cancel₀ step.ne' tie

/-- **The rounded pattern** stands for a number of steps that none is nearer to, and if another is as
near, it is even. -/
theorem roundedPattern_nearest {num den : Nat} (hd : 0 < den) (p : Nat) :
    |(num : ℚ) / den - unitsOf (roundedPattern num den)| ≤ |(num : ℚ) / den - unitsOf p| ∧
      (p ≠ roundedPattern num den →
        |(num : ℚ) / den - unitsOf p| = |(num : ℚ) / den - unitsOf (roundedPattern num den)| →
        roundedPattern num den % 2 = 0) := by
  obtain ⟨s, r, h⟩ := exists_rounded num den
  rw [h.unitsOf_eq]
  rcases unitsOf_cases p s with ⟨j, hj⟩ | ⟨pos, lt⟩
  · obtain ⟨near, even⟩ := h.nearest hd j
    rw [hj]
    refine ⟨near, fun hp tie => ?_⟩
    have other : j ≠ r := by
      rintro rfl
      exact hp (strictMono_unitsOf.injective (hj.trans h.unitsOf_eq.symm))
    have := even other tie
    rw [h.pattern]
    omega
  · obtain ⟨near, -⟩ := h.nearest hd (2 ^ 52)
    have above : ((2 ^ 52 * 2 ^ s : Nat) : ℚ) ≤ (num : ℚ) / den := by
      have floor : ((num / den : Nat) : ℚ) ≤ (num : ℚ) / den := Nat.cast_div_le
      have steps : ((2 ^ 52 * 2 ^ s : Nat) : ℚ) ≤ (num / den : Nat) := by
        exact_mod_cast h.le_steps pos
      linarith
    have lt : (unitsOf p : ℚ) < (2 ^ 52 * 2 ^ s : Nat) := by exact_mod_cast lt
    have further : |(num : ℚ) / den - (2 ^ 52 * 2 ^ s : Nat)| < |(num : ℚ) / den - unitsOf p| := by
      rw [abs_of_nonneg (by linarith), abs_of_nonneg (by linarith)]
      linarith
    exact ⟨by linarith, fun _ tie => by linarith⟩

/-- From halfway between the last two values of 53 bits and the next power of two on, rounding reaches
the pattern behind those of that exponent. -/
theorem le_roundedPattern_iff {num den : Nat} (hd : 0 < den) (e : Nat) :
    (e + 3) * 2 ^ 52 ≤ roundedPattern num den ↔ (2 ^ 54 - 1) * 2 ^ e * den ≤ num := by
  obtain ⟨s, r, h⟩ := exists_rounded num den
  have le := h.le
  have lo := h.lo
  rw [h.pattern]
  rcases Nat.lt_trichotomy s (e + 1) with lt | rfl | gt
  · have small : num < 2 ^ 53 * 2 ^ e * den := by
      refine (Nat.div_lt_iff_lt_mul hd).1 (Nat.lt_of_lt_of_le h.steps_lt ?_)
      exact Nat.mul_le_mul_left _ (Nat.pow_le_pow_right (by decide) (by omega))
    have less : 2 ^ 53 * 2 ^ e * den ≤ (2 ^ 54 - 1) * 2 ^ e * den :=
      Nat.mul_le_mul_right _ (Nat.mul_le_mul_right _ (by decide))
    omega
  · have top : (e + 3) * 2 ^ 52 ≤ (e + 1) * 2 ^ 52 + r ↔ r = 2 ^ 53 - 1 + 1 := by omega
    have floor_lt : num / (den * 2 ^ (e + 1)) < 2 ^ 53 - 1 + 1 := by
      rw [← Nat.div_div_eq_div_mul]
      exact Nat.div_lt_of_lt_mul (by rw [Nat.mul_comm]; exact h.steps_lt)
    have bound : 2 * (den * 2 ^ (e + 1) * (2 ^ 53 - 1)) + den * 2 ^ (e + 1) =
        2 * ((2 ^ 54 - 1) * 2 ^ e * den) := by
      rw [Nat.pow_succ]
      ring
    have step := Nat.mul_pos hd (Nat.two_pow_pos (e + 1))
    rw [top, h.rounded, roundHalfEven_eq_succ_iff step (by decide) floor_lt, bound]
    exact Nat.mul_le_mul_left_iff (by decide)
  · have big : 2 ^ 52 * 2 ^ s * den ≤ num :=
      (Nat.le_div_iff_mul_le hd).1 (h.le_steps (by omega))
    have more : (2 ^ 54 - 1) * 2 ^ e * den ≤ 2 ^ 52 * 2 ^ s * den := by
      refine Nat.mul_le_mul_right _ ?_
      calc (2 ^ 54 - 1) * 2 ^ e ≤ 2 ^ 54 * 2 ^ e := Nat.mul_le_mul_right _ (by decide)
        _ = 2 ^ 52 * 2 ^ (e + 2) := by rw [Nat.pow_add 2 e 2]; omega
        _ ≤ 2 ^ 52 * 2 ^ s := Nat.mul_le_mul_left _ (Nat.pow_le_pow_right (by decide) gt)
    omega

end Reckoner.Magnitude
