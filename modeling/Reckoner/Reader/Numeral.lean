import Reckoner.Number.Decimal
import Reckoner.Number.Signed
import Reckoner.Reader.Error
/-!
# The pending numeral

The characters of a number are gathered until something ends it. A minus sign that is no operator
waits here for the number that it negates.

Results:
* `take_empty`, `take_of_text_ne`: without characters nothing is taken and a sign keeps waiting;
  otherwise the numeral starts anew, whether or not its text was a number.
-/
namespace Reckoner

structure Numeral where
  text : String
  /-- Where the characters stand in the text that is read. -/
  span? : Option Span
  negative : Bool
deriving DecidableEq, Repr

namespace Numeral

def empty : Numeral := ⟨"", none, false⟩

/-- The characters of numerals: the ten digits and the separators. -/
def accepts (c : Char) : Bool := c.isDigit || Decimal.isSeparator c

def push (n : Numeral) (c : Char) (p : Position) : Numeral :=
  { n with
    text := n.text.push c
    span? := some (match n.span? with
      | some span => span.extendTo p
      | none => Span.single p) }

def markNegative (n : Numeral) : Numeral := { n with negative := true }

/-- The double nearest to what the characters denote, with the sign. -/
def value? (n : Numeral) : Option Float :=
  (Decimal.ofChars? n.text.toList).map fun d => Signed.toFloat ⟨n.negative, d.magnitude⟩

/-- Ends the numeral: what is left of it, and the number that it was, if there was one. -/
def take (n : Numeral) : Numeral × Except ReadError (Option Float) :=
  if n.text = "" then (n, .ok none)
  else (empty, match n.value? with
    | some x => .ok (some x)
    | none => .error (.malformed n.text (n.span?.getD (Span.single 0))))

theorem take_empty {n : Numeral} (h : n.text = "") : n.take = (n, .ok none) := if_pos h

theorem take_of_text_ne {n : Numeral} (h : n.text ≠ "") : n.take.1 = empty := by
  rw [take, if_neg h]

end Numeral

end Reckoner
