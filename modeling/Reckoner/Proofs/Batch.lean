import Reckoner.Proofs.Layout
import Reckoner.Reader.Numeral
import Reckoner.Reader.Blank
import Reckoner.Tree.Basic
/-!
# Reading all at once

What a text means, told of its layout and not of a reader that takes one character after the other.
A frame is divided at the characters of its own that belong to no numeral. Between two of them
stands a *segment*; its operands are the trees of its groups, in order, and behind them the number
that all its own digits spell, however they are scattered.
`Reckoner.Proofs.BatchReader` shows that this is what reading gives.
-/
namespace Reckoner

/-! ## Segments -/

/-- A character of a frame, at its position, or what became of a group in it. -/
inductive Piece where
  | own (c : Char) (p : Position)
  | group (tree : Except ReadError (Option Tree))

/-- A character that divides a frame, at its position. -/
abbrev Cut := Char × Position

structure Segment where
  groups : List (Except ReadError (Option Tree))
  digits : List (Char × Position)

namespace Segment

def empty : Segment := ⟨[], []⟩

/-- The segments of a frame, each but the first behind the character that starts it. -/
def divide : List Piece → Segment × List (Cut × Segment)
  | [] => (empty, [])
  | .group tree :: pieces =>
    let (s, rest) := divide pieces
    (⟨tree :: s.groups, s.digits⟩, rest)
  | .own c p :: pieces =>
    let (s, rest) := divide pieces
    if isBlank c then (s, rest)
    else if Numeral.accepts c then (⟨s.groups, (c, p) :: s.digits⟩, rest)
    else (empty, ((c, p), s) :: rest)

/-- The trees of those groups that have one, unless a group cannot be read. -/
def treesOf : List (Except ReadError (Option Tree)) → Except ReadError (List Tree)
  | [] => .ok []
  | tree :: groups => do
    let tree ← tree
    let trees ← treesOf groups
    return tree.toList ++ trees

/-- The characters of digits. -/
def spelling (digits : List (Char × Position)) : List Char := digits.map Prod.fst

/-- From the first digit to behind the last. -/
def extent? (digits : List (Char × Position)) : Option Span :=
  match digits.head?, digits.getLast? with
  | some first, some last => some ⟨first.2, last.2 + 1⟩
  | _, _ => none

/-- The number that digits spell, if there are any. -/
def literal (digits : List (Char × Position)) (negative : Bool) : Except ReadError (Option Tree) :=
  match extent? digits with
  | none => .ok none
  | some span =>
    match Decimal.ofChars? (spelling digits) with
    | some d => .ok (some (.number (Signed.toFloat ⟨negative, d.magnitude⟩)))
    | none => .error (.malformed (String.ofList (spelling digits)) span)

def operands (s : Segment) (negative : Bool) : Except ReadError (List Tree) := do
  let trees ← treesOf s.groups
  let number ← literal s.digits negative
  return trees ++ number.toList

end Segment

/-- What is known of a frame between two characters that divide it: its tree, and whether a minus
sign waits for a number. -/
structure Progress where
  root : Option Tree
  negative : Bool

namespace Progress
open Segment

def start : Progress := ⟨none, false⟩

/-- The tree with an operand more. The first operand is the tree; behind an operator that waits for its
right operand, it is that one; otherwise there is no place for it, and it is dropped. -/
def put (root : Option Tree) (operand : Tree) : Option Tree :=
  match root with
  | none => some operand
  | some (.pending op left) => some (.binary op left operand)
  | some t => some t

/-- Behind a segment all its operands are placed, and a number has used up the sign. -/
def pass (s : Segment) (σ : Progress) : Except ReadError Progress := do
  let operands ← s.operands σ.negative
  return ⟨operands.foldl put σ.root, σ.negative && s.digits.isEmpty⟩

/-- Behind a complete tree an operator has to follow, and otherwise a sign. -/
def cut (c : Cut) (σ : Progress) : Except ReadError Progress :=
  match σ.root.filter Tree.isComplete, Op.ofChar? c.1 with
  | some t, some op => .ok { σ with root := some (.pending op t) }
  | some _, none => .error (.unexpected c.1 c.2)
  | none, _ => if c.1 = '-' then .ok { σ with negative := true } else .error (.unexpected c.1 c.2)

/-- The progress up to the last segment, and that segment. -/
def run (σ : Progress) (s : Segment) : List (Cut × Segment) → Except ReadError (Progress × Segment)
  | [] => .ok (σ, s)
  | (c, next) :: rest => do
    let σ ← σ.pass s
    let σ ← σ.cut c
    σ.run next rest

end Progress

/-! ## Frames and texts -/

/-- The tree of a frame that is closed. -/
def treeOfPieces (pieces : List Piece) : Except ReadError (Option Tree) := do
  let (s, rest) := Segment.divide pieces
  let (σ, last) ← Progress.start.run s rest
  let σ ← σ.pass last
  return σ.root

/-- Checks a frame that is never closed: the digits of its last segment may still go on. -/
def checkOpened (pieces : List Piece) : Except ReadError Unit := do
  let (s, rest) := Segment.divide pieces
  let (_, last) ← Progress.start.run s rest
  let _ ← Segment.treesOf last.groups
  return ()

/-- The pieces of a frame that starts at `p`. -/
def Contents.pieces : Contents → Position → List Piece
  | nil, _ => []
  | own c _ rest, p => .own c p :: rest.pieces (p + 1)
  | group inner rest, p =>
    .group (treeOfPieces (inner.pieces (p + 1))) :: rest.pieces (p + inner.text.length + 2)

namespace Layout

/-- Outside all groups a `)` that matches nothing is a character like others. -/
def strayPieces : List Contents → Position → List Piece
  | [], _ => []
  | a :: stray, p => .own ')' p :: (a.pieces (p + 1) ++ strayPieces stray (p + a.text.length + 1))

def outerPieces (L : Layout) : List Piece :=
  L.first.pieces 0 ++ strayPieces L.stray L.first.text.length

/-- Where the first group that is never closed starts. -/
def outerLength (L : Layout) : Position :=
  L.first.text.length + (L.stray.flatMap fun a => ')' :: a.text).length

def checkGroups : List Contents → Position → Except ReadError Unit
  | [], _ => .ok ()
  | a :: opened, p => do
    checkOpened (a.pieces (p + 1))
    checkGroups opened (p + a.text.length + 1)

/-- What a text means: its tree if it has one, or the first error in it. Groups that are never closed
are an error where nothing else is. -/
def tree (L : Layout) : Except ReadError (Option Tree) :=
  if L.opened = [] then treeOfPieces L.outerPieces
  else do
    checkOpened L.outerPieces
    checkGroups L.opened L.outerLength
    .error (.unclosed L.opened.length)

end Layout

end Reckoner
