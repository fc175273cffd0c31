/-!
# Positions and spans

A position counts the characters in front of it. A span is a half-open range of positions.
-/
namespace Reckoner

abbrev Position := Nat

structure Span where
  start : Position
  stop : Position
deriving DecidableEq, Repr

namespace Span

/-- The span of the one character at a position. -/
def single (p : Position) : Span := ⟨p, p + 1⟩

/-- Moves the end, if need be, behind the character at `p`. The start stays. -/
def extendTo (s : Span) (p : Position) : Span := ⟨s.start, max s.stop (p + 1)⟩

def text (s : Span) : String := toString s.start ++ "-" ++ toString s.stop

instance : Membership Position Span := ⟨fun s p => s.start ≤ p ∧ p < s.stop⟩

end Span

end Reckoner
