import Reckoner.Number.Magnitude
/-!
# Decimals

Fixed-point decimal numbers, their text, and the numerals that denote them. A numeral has at most
one separator, a point or a comma, and a digit on at least one side of it; if it starts with the
separator, the digit is behind it.

Results:
* `ofChars?_chars`: the text of a decimal is a numeral that denotes it.
-/
namespace Reckoner

/-- The value `units / 10^places`. -/
structure Decimal where
  units : Nat
  places : Nat
deriving DecidableEq

namespace Decimal

/-- The digits of `units`, with zeros in front until there is one digit more than places. -/
def digits (d : Decimal) : List Char := (Nat.toDigits 10 d.units).leftpad (d.places + 1) '0'

/-- The digits in front of the point. -/
def whole (d : Decimal) : List Char := d.digits.take (d.digits.length - d.places)

/-- The digits behind the point. -/
def fraction (d : Decimal) : List Char := d.digits.drop (d.digits.length - d.places)

/-- The text of a decimal; without places it has no point. -/
def chars (d : Decimal) : List Char :=
  if d.places = 0 then d.whole else d.whole ++ '.' :: d.fraction

/-- A point and a comma both separate the fraction. -/
def isSeparator (c : Char) : Bool := c == '.' || c == ','

/-- The decimal that a numeral denotes; other texts denote none. -/
def ofChars? (text : List Char) : Option Decimal :=
  let whole := text.takeWhile Char.isDigit
  match text.dropWhile Char.isDigit with
  | [] => if whole.isEmpty then none else some ⟨Nat.ofDigitChars 10 whole 0, 0⟩
  | c :: fraction =>
    if isSeparator c && fraction.all Char.isDigit && !(whole ++ fraction).isEmpty then
      some ⟨Nat.ofDigitChars 10 (whole ++ fraction) 0, fraction.length⟩
    else none

/-- The magnitude nearest to the decimal. -/
def magnitude (d : Decimal) : Magnitude := Magnitude.nearest d.units (10 ^ d.places)

/-! ## Reading what is written -/

theorem ofDigitChars_digits (d : Decimal) : Nat.ofDigitChars 10 d.digits 0 = d.units := by
  rw [digits, List.leftpad, Nat.ofDigitChars_append, Nat.ofDigitChars_replicate_zero, Nat.mul_zero,
    Nat.ofDigitChars_ten_toDigits]

theorem isDigit_of_mem_digits {d : Decimal} {c : Char} (h : c ∈ d.digits) : c.isDigit = true := by
  rw [digits, List.leftpad, List.mem_append] at h
  rcases h with h | h
  · rw [List.eq_of_mem_replicate h]; decide
  · exact Nat.isDigit_of_mem_toDigits (by decide) (by decide) h

theorem lt_length_digits (d : Decimal) : d.places < d.digits.length := by
  rw [digits, List.length_leftpad]; exact Nat.le_max_left _ _

theorem whole_append_fraction (d : Decimal) : d.whole ++ d.fraction = d.digits :=
  List.take_append_drop _ _

theorem length_fraction (d : Decimal) : d.fraction.length = d.places := by
  have := d.lt_length_digits
  rw [fraction, List.length_drop]; omega

theorem isDigit_of_mem_whole {d : Decimal} {c : Char} (h : c ∈ d.whole) : c.isDigit = true :=
  isDigit_of_mem_digits (List.mem_of_mem_take h)

theorem isDigit_of_mem_fraction {d : Decimal} {c : Char} (h : c ∈ d.fraction) :
    c.isDigit = true :=
  isDigit_of_mem_digits (List.mem_of_mem_drop h)

theorem digits_ne_nil (d : Decimal) : d.digits ≠ [] := by
  intro h
  have := d.lt_length_digits
  rw [h] at this
  exact absurd this (Nat.not_lt_zero _)

theorem ofChars?_chars (d : Decimal) : ofChars? d.chars = some d := by
  have units := d.ofDigitChars_digits
  have joined := d.whole_append_fraction
  have ends := d.length_fraction
  have nonempty : d.digits.isEmpty = false := by simpa using d.digits_ne_nil
  unfold chars
  split
  · rename_i none
    have fraction : d.fraction = [] := List.eq_nil_of_length_eq_zero (ends.trans none)
    rw [fraction, List.append_nil] at joined
    rw [joined]
    have take : d.digits.takeWhile Char.isDigit = d.digits := by
      simpa using @List.takeWhile_append_of_pos _ _ d.digits [] fun c hc => isDigit_of_mem_digits hc
    have drop : d.digits.dropWhile Char.isDigit = [] := by
      simpa using @List.dropWhile_append_of_pos _ _ d.digits [] fun c hc => isDigit_of_mem_digits hc
    obtain ⟨u, p⟩ := d
    simp only at none units
    subst none
    simp [ofChars?, take, drop, nonempty, units]
  · have take : (d.whole ++ '.' :: d.fraction).takeWhile Char.isDigit = d.whole := by
      rw [List.takeWhile_append_of_pos fun c hc => isDigit_of_mem_whole hc]; simp
    have drop : (d.whole ++ '.' :: d.fraction).dropWhile Char.isDigit = '.' :: d.fraction := by
      rw [List.dropWhile_append_of_pos fun c hc => isDigit_of_mem_whole hc]; simp
    have all : d.fraction.all Char.isDigit = true :=
      List.all_eq_true.2 fun c hc => isDigit_of_mem_fraction hc
    have point : isSeparator '.' = true := by decide
    simp [ofChars?, take, drop, joined, nonempty, all, ends, units, point]

end Decimal

end Reckoner
