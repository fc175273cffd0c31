/-!
# Binary operators

The five operators between two doubles. None binds tighter than another.

Results:
* `ofChar?_eq_some_iff`: a character denotes an operator exactly if it is its symbol.
-/
namespace Reckoner

inductive Op where
  | add | sub | mul | div | pow
deriving DecidableEq, Repr

namespace Op

def all : List Op := [add, sub, mul, div, pow]

def symbol : Op → Char
  | add => '+'
  | sub => '-'
  | mul => '*'
  | div => '/'
  | pow => '^'

/-- The operator that a character denotes. -/
def ofChar? (c : Char) : Option Op := all.find? fun op => op.symbol == c

/-- Arithmetic on doubles, so that no pair of operands fails. -/
def apply : Op → Float → Float → Float
  | add, x, y => x + y
  | sub, x, y => x - y
  | mul, x, y => x * y
  | div, x, y => x / y
  | pow, x, y => x.pow y

theorem symbol_injective {a b : Op} (h : a.symbol = b.symbol) : a = b := by
  revert h; cases a <;> cases b <;> decide

@[simp] theorem ofChar?_symbol (op : Op) : ofChar? op.symbol = some op := by cases op <;> decide

theorem ofChar?_eq_some_iff {c : Char} {op : Op} : ofChar? c = some op ↔ c = op.symbol := by
  constructor
  · intro h
    have := List.find?_some h
    simpa using (eq_of_beq this).symm
  · rintro rfl
    exact ofChar?_symbol op

end Op

end Reckoner
