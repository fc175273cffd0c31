import Reckoner.Reader.Basic
/-!
# Calculating

From the text of an expression to its value.
-/
namespace Reckoner

/-- Why a text has no value. -/
inductive CalcError where
  | read (error : ReadError)
  | evaluate (error : EvalError)
deriving DecidableEq, Repr

def CalcError.message : CalcError → String
  | read e => e.message
  | evaluate e => e.message

/-- The value of an expression; a text without operands has none, which is no error. -/
def calculate (text : String) : Except CalcError (Option Float) :=
  match (Reader.read text).toExcept with
  | .error e => .error (.read e)
  | .ok r => r.value.mapError .evaluate

end Reckoner
