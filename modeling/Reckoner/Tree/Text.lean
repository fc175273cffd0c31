import Reckoner.Tree.Basic
import Reckoner.Number.Text
/-!
# The text of a tree

Every node is in parentheses, operators stand between blanks, and a missing operand is a question
mark.
-/
namespace Reckoner.Tree

def text : Tree → String
  | number x => numberText x
  | pending op left => "(" ++ left.text ++ " " ++ op.symbol.toString ++ " ?)"
  | binary op left right => "(" ++ left.text ++ " " ++ op.symbol.toString ++ " " ++ right.text ++ ")"

end Reckoner.Tree
