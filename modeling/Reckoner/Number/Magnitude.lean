import Reckoner.Number.Encoding
/-!
# Magnitudes

The absolute value of a double that is a number: a bit pattern with the sign bit clear, up to and
including the one of infinity. Patterns are ordered as the values that they stand for, and every
finite one is a whole number of steps of `2^-1074`, so all rounding is arithmetic on `Nat`.

Results:
* `nearest_units`: the magnitude nearest to the value of a magnitude is that magnitude.
* `nearest_mul_mul`: what is nearest depends on a quotient, not on the numbers that it is made of.
-/
namespace Reckoner

/-- The absolute value of a double other than a NaN, by its bit pattern. -/
structure Magnitude where
  pattern : Nat
  pattern_le : pattern ≤ 2047 * 2 ^ 52
deriving DecidableEq

namespace Magnitude

def infinity : Magnitude := ⟨2047 * 2 ^ 52, Nat.le_refl _⟩

def isFinite (m : Magnitude) : Bool := m.pattern < 2047 * 2 ^ 52

theorem isFinite_iff {m : Magnitude} : m.isFinite = true ↔ m.pattern < 2047 * 2 ^ 52 :=
  decide_eq_true_iff

theorem eq_infinity {m : Magnitude} (h : m.isFinite = false) : m = infinity := by
  obtain ⟨p, hp⟩ := m
  have : p = 2047 * 2 ^ 52 := by
    simp only [isFinite, decide_eq_false_iff_not] at h
    omega
  subst this
  rfl

/-- A step is `2^-1074`, the least positive magnitude. -/
def stepExponent : Nat := 1074

/-- The number of steps in the value one. -/
def one : Nat := 2 ^ stepExponent

/-- The value of a finite magnitude, counted in steps. Patterns below `2^52` count the
steps themselves; above, the exponent field tells how often a significand of 53 bits is doubled. -/
def units (m : Magnitude) : Nat :=
  if m.pattern < 2 ^ 52 then m.pattern
  else (2 ^ 52 + m.pattern % 2 ^ 52) * 2 ^ (m.pattern / 2 ^ 52 - 1)

/-- The whole number next to `num / den`; of two equally near ones the even one. -/
def roundHalfEven (num den : Nat) : Nat :=
  let q := num / den
  let r := num % den
  if 2 * r < den then q
  else if den < 2 * r then q + 1
  else q + q % 2

/-- How many low bits of a value of `steps` steps exceed a significand of 53 bits. -/
def excess (steps : Nat) : Nat := steps.log2 - 52

/-- The pattern of the double nearest to `num / den` steps, were exponents unbounded. -/
def roundedPattern (num den : Nat) : Nat :=
  let s := excess (num / den)
  s * 2 ^ 52 + roundHalfEven num (den * 2 ^ s)

/-- The magnitude nearest to `num / den`. Ties go to the even significand, and a value that rounds
past the largest finite magnitude is infinite. -/
def nearest (num den : Nat) : Magnitude :=
  ⟨min (roundedPattern (num * one) den) (2047 * 2 ^ 52), Nat.min_le_right _ _⟩

/-! ## Exact values -/

theorem one_pos : 0 < one := Nat.two_pow_pos stepExponent

theorem roundHalfEven_mul (q : Nat) {den : Nat} (h : 0 < den) : roundHalfEven (q * den) den = q := by
  simp [roundHalfEven, Nat.mul_div_cancel q h, h]

theorem excess_of_lt {steps : Nat} (h : steps < 2 ^ 53) : excess steps = 0 := by
  have : steps.log2 < 53 := by
    by_cases h0 : steps = 0
    · subst h0; decide
    · exact (Nat.log2_lt h0).2 h
  unfold excess; omega

theorem excess_mul_two_pow {sig k : Nat} (lo : 2 ^ 52 ≤ sig) (hi : sig < 2 ^ 53) :
    excess (sig * 2 ^ k) = k := by
  have hk := Nat.two_pow_pos k
  have h : (sig * 2 ^ k).log2 = 52 + k := by
    refine (Nat.log2_eq_iff (Nat.mul_ne_zero (by omega) (by omega))).2 ⟨?_, ?_⟩
    · rw [Nat.pow_add]; exact Nat.mul_le_mul_right _ lo
    · rw [show 52 + k + 1 = 53 + k by omega, Nat.pow_add]; exact Nat.mul_lt_mul_of_pos_right hi hk
  unfold excess; omega

/-- A significand of 53 bits, doubled any number of times, is a value that needs no rounding. -/
theorem roundedPattern_exact {sig k : Nat} (hi : sig < 2 ^ 53) (lo : k = 0 ∨ 2 ^ 52 ≤ sig) :
    roundedPattern (sig * 2 ^ k * one) one = k * 2 ^ 52 + sig := by
  have hs : excess (sig * 2 ^ k) = k := by
    rcases lo with rfl | lo
    · rw [Nat.pow_zero, Nat.mul_one, excess_of_lt hi]
    · exact excess_mul_two_pow lo hi
  rw [roundedPattern, Nat.mul_div_cancel _ one_pos, hs]
  rw [Nat.mul_right_comm, Nat.mul_assoc, roundHalfEven_mul _ (Nat.mul_pos one_pos (Nat.two_pow_pos k))]

theorem nearest_units (m : Magnitude) : nearest m.units one = m := by
  obtain ⟨p, hp⟩ := m
  have key : roundedPattern (units ⟨p, hp⟩ * one) one = p := by
    unfold units
    split
    · rename_i h
      have := @roundedPattern_exact p 0 (by simp only at h; omega) (.inl rfl)
      simpa using this
    · rename_i h
      have := Nat.div_add_mod p (2 ^ 52)
      rw [roundedPattern_exact (by omega) (.inr (by omega))]
      simp only at h ⊢
      omega
  simp only [nearest, key, Nat.min_eq_left hp]

/-! ## Quotients -/

theorem roundHalfEven_mul_mul {num den k : Nat} (h : 0 < k) :
    roundHalfEven (num * k) (den * k) = roundHalfEven num den := by
  unfold roundHalfEven
  rw [Nat.mul_div_mul_right _ _ h, Nat.mul_mod_mul_right]
  simp only [← Nat.mul_assoc, Nat.mul_lt_mul_right h]

theorem nearest_mul_mul {num den k : Nat} (h : 0 < k) :
    nearest (num * k) (den * k) = nearest num den := by
  have : roundedPattern (num * k * one) (den * k) = roundedPattern (num * one) den := by
    unfold roundedPattern
    rw [Nat.mul_right_comm num k, Nat.mul_div_mul_right _ _ h]
    simp only
    rw [Nat.mul_right_comm den k, roundHalfEven_mul_mul h]
  simp only [nearest, this]

end Magnitude

end Reckoner
