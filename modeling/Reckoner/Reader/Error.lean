import Reckoner.Reader.Span
/-!
# Reading errors

Why a text cannot be read as an expression, and how that is said.
-/
namespace Reckoner

inductive ReadError where
  /-- A character that means nothing where it stands. -/
  | unexpected (char : Char) (position : Position)
  /-- Characters of a number that do not make up a numeral. -/
  | malformed (text : String) (span : Span)
  /-- The text ends inside so many groups. -/
  | unclosed (depth : Nat)
  /-- Something was read after the end. -/
  | finished
deriving DecidableEq, Repr

namespace ReadError

def message : ReadError → String
  | unexpected c p =>
    "Unexpected character (" ++ c.toString ++ ") found at position " ++ toString p
  | malformed text span => "Malformed number \"" ++ text ++ "\" at " ++ span.text
  | unclosed depth => "Expected ')' to close " ++ toString depth ++ " open group(s)"
  | finished => "Parser already finished"

/-- The character that was not expected. -/
def unexpectedChar? : ReadError → Option Char
  | unexpected c _ => some c
  | _ => none

end ReadError

end Reckoner
