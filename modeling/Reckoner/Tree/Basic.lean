import Reckoner.Tree.Op
/-!
# Expression trees

A tree of binary operators over doubles. An operator is entered before its right operand is known,
so a node may wait for it; only the node at the top is ever filled.
-/
namespace Reckoner

inductive Tree where
  | number (value : Float)
  /-- An operator that waits for its right operand. -/
  | pending (op : Op) (left : Tree)
  | binary (op : Op) (left right : Tree)
deriving DecidableEq

/-- Why a tree has no value. -/
inductive EvalError where
  | missingOperand (op : Op)
deriving DecidableEq, Repr

def EvalError.message : EvalError → String
  | missingOperand op => "Second argument of (" ++ op.symbol.toString ++ ") not set"

namespace Tree

/-- Whether the top node has all its operands; the nodes below it are not looked at. -/
def isComplete : Tree → Bool
  | pending _ _ => false
  | _ => true

/-- The tree with the missing operand of its top node filled, if that node misses one. -/
def fillRight? (t operand : Tree) : Option Tree :=
  match t with
  | pending op left => some (binary op left operand)
  | _ => none

/-- The value of the tree: left operand first, and a missing operand counts before anything on the
right is looked at. -/
def evaluate : Tree → Except EvalError Float
  | number x => .ok x
  | pending op left => do
    let _ ← left.evaluate
    .error (.missingOperand op)
  | binary op left right => do
    let x ← left.evaluate
    let y ← right.evaluate
    .ok (op.apply x y)

/-- Equality of trees whose numbers are compared as doubles: the two zeros agree, and a NaN agrees
with nothing. -/
def agrees : Tree → Tree → Bool
  | number x, number y => x == y
  | pending a l, pending b m => a == b && l.agrees m
  | binary a l r, binary b m s => a == b && l.agrees m && r.agrees s
  | _, _ => false

end Tree

end Reckoner
