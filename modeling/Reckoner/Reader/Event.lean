import Reckoner.Reader.Error
import Reckoner.Tree.Text
/-!
# Events

What happens while an expression is read and may be worth a line in a log.
-/
namespace Reckoner

inductive Event where
  /-- A group starts with the parenthesis at this position. -/
  | opened (position : Position)
  /-- A group ends; it holds the tree, or no operand. -/
  | closed (group : Option Tree)
  /-- An operand has no place in an expression that misses none. -/
  | discarded (operand root : Tree)
  /-- A line of a session could not be read. -/
  | rejected (error : ReadError)
deriving DecidableEq

inductive Severity where
  | debug | warn
deriving DecidableEq, Repr

def Severity.name : Severity → String
  | debug => "DEBUG"
  | warn => "WARN"

namespace Event

def severity : Event → Severity
  | discarded _ _ => .warn
  | _ => .debug

def message : Event → String
  | opened _ => "opening nested group"
  | closed (some _) => "closing nested group"
  | closed none => "closing empty nested group"
  | discarded _ _ => "discarding operand, expression is already complete"
  | rejected _ => "parse failed"

/-- What the message is about, as named texts. -/
def fields : Event → List (String × String)
  | opened p => [("position", toString p)]
  | closed (some group) => [("group", group.text)]
  | closed none => []
  | discarded operand root => [("dropped", operand.text), ("root", root.text)]
  | rejected error => [("err", error.message)]

end Event

end Reckoner
