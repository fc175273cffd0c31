import Reckoner.Number.Shortest
import Reckoner.Number.Signed
/-!
# The text of a number

Whole numbers below `2^64` are written with all their digits and one place, other finite numbers
with the fewest digits that read back, and never with an exponent.

Results:
* `magnitude_decimal`: the decimal that is written for a magnitude reads back.
-/
namespace Reckoner

/-- Whole numbers below this bound are written with all their digits and one place. -/
def wholeBound : Nat := 2 ^ 64

def Magnitude.isWhole (m : Magnitude) : Bool := m.units % one = 0

/-- The decimal that is written for a finite magnitude. -/
def Magnitude.decimal (m : Magnitude) : Decimal :=
  if m.isWhole && m.units / one < wholeBound then ⟨m.units / one * 10, 1⟩ else m.shortest

theorem Magnitude.magnitude_decimal (m : Magnitude) : m.decimal.magnitude = m := by
  unfold decimal
  split
  · rename_i h
    simp only [isWhole, Bool.and_eq_true, decide_eq_true_eq] at h
    have whole : m.units / one * one = m.units := Nat.div_mul_cancel (Nat.dvd_of_mod_eq_zero h.1)
    have nearestWhole : nearest (m.units / one) 1 = m := by
      rw [← @nearest_mul_mul _ 1 _ one_pos, whole, Nat.one_mul, nearest_units]
    exact (@nearest_mul_mul _ 1 10 (by decide)).trans nearestWhole
  · exact m.magnitude_shortest

def Magnitude.chars (m : Magnitude) : List Char :=
  if m.isFinite then m.decimal.chars else ['i', 'n', 'f']

def Signed.chars (x : Signed) : List Char :=
  if x.negative then '-' :: x.magnitude.chars else x.magnitude.chars

/-- A NaN is written without a sign. -/
def numberText (x : Float) : String :=
  match Signed.ofFloat? x with
  | some s => String.ofList s.chars
  | none => "NaN"

end Reckoner
