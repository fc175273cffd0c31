import Reckoner.Reader.Blank
import Reckoner.Reader.Numeral
import Reckoner.Reader.Outcome
/-!
# Frames

What is known of the innermost group that is being read, or of the whole expression outside all
groups: a pending numeral, and the tree of all that came before it.

There is no precedence. An operator takes the whole tree as its left operand, and the next operand
fills the right one.
-/
namespace Reckoner

structure Frame where
  numeral : Numeral
  root : Option Tree
deriving DecidableEq

namespace Frame

def empty : Frame := ⟨Numeral.empty, none⟩

/-- The tree, if its top node has all its operands. -/
def complete? (f : Frame) : Option Tree := f.root.filter Tree.isComplete

/-- Puts an operand where one is missing. Where none is, it is discarded. -/
def place (operand : Tree) (f : Frame) : Outcome Frame :=
  match f.root with
  | none => .done { f with root := some operand }
  | some root =>
    match root.fillRight? operand with
    | some filled => .done { f with root := some filled }
    | none => ⟨f, [.discarded operand root], none⟩

/-- Ends the pending numeral and places its number. -/
def settle (f : Frame) : Outcome Frame :=
  match f.numeral.take with
  | (numeral, .ok (some x)) => place (.number x) { f with numeral := numeral }
  | (numeral, .ok none) => .done { f with numeral := numeral }
  | (numeral, .error e) => .failed { f with numeral := numeral } e

/-- Reads a character that ends a numeral. Behind a complete tree it has to be an operator, and
otherwise a minus sign for the number to come. -/
def readOperator (c : Char) (p : Position) (f : Frame) : Outcome Frame :=
  f.settle.andThen fun f =>
    match f.complete? with
    | some root =>
      match Op.ofChar? c with
      | some op => .done { f with root := some (.pending op root) }
      | none => .failed f (.unexpected c p)
    | none =>
      if c = '-' then .done { f with numeral := f.numeral.markNegative }
      else .failed f (.unexpected c p)

/-- Reads a character that opens no group and closes none. -/
def readChar (c : Char) (p : Position) (f : Frame) : Outcome Frame :=
  if isBlank c then .done f
  else if Numeral.accepts c then .done { f with numeral := f.numeral.push c p }
  else f.readOperator c p

end Frame

end Reckoner
