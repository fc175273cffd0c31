import Reckoner.Reader.Frame
/-!
# Readers

An expression is read character by character. A group is read by a reader of its own, which gets
every character up to the parenthesis that matches, and whose tree is then placed as an operand
of the reader around it.

Results:
* `feed_append`: a text may be fed in pieces.
-/
namespace Reckoner

/-- What a reader keeps for itself: its frame, the number of open groups in it, the position of the
next character, and whether the end was reached. -/
structure Level where
  frame : Frame
  depth : Nat
  position : Position
  finished : Bool
deriving DecidableEq

namespace Level

def start (p : Position) : Level := ⟨Frame.empty, 0, p, false⟩

/-- The level behind the character at its position. -/
def advance (l : Level) : Level := { l with position := l.position + 1 }

def withFrame (l : Level) (f : Frame) : Level := { l with frame := f }

end Level

/-- A reader outside all groups, or one with the reader of the group that is open in it. -/
inductive Reader where
  | innermost (level : Level)
  | enclosing (level : Level) (inner : Reader)
deriving DecidableEq

namespace Reader

/-- A reader whose first character stands at `p`. -/
def startAt (p : Position) : Reader := innermost (Level.start p)

def start : Reader := startAt 0

def level : Reader → Level
  | innermost l => l
  | enclosing l _ => l

def setLevel (l : Level) : Reader → Reader
  | innermost _ => innermost l
  | enclosing _ inner => enclosing l inner

def root (r : Reader) : Option Tree := r.level.frame.root

/-- The number of groups that are open. -/
def depth (r : Reader) : Nat := r.level.depth

def isFinished (r : Reader) : Bool := r.level.finished

/-- Ends the text. A group that is still open is an error, and so is an end that was reached
before. -/
def finish (r : Reader) : Outcome Reader :=
  if r.level.finished then .failed r .finished
  else
    let l := { r.level with finished := true }
    if 0 < l.depth then .failed (r.setLevel l) (.unclosed l.depth)
    else l.frame.settle.map fun f => r.setLevel (l.withFrame f)

/-- Ends the group that `inner` reads and places its tree. A group that cannot be ended is lost. -/
def closeGroup (l : Level) (inner : Reader) : Outcome Reader :=
  let ended := inner.finish
  match ended.error?, ended.state.root with
  | some e, _ => ⟨innermost l, ended.events, some e⟩
  | none, none => ⟨innermost l, ended.events ++ [.closed none], none⟩
  | none, some group =>
    let placed := l.frame.place group
    ⟨innermost (l.withFrame placed.state), ended.events ++ .closed group :: placed.events,
      placed.error?⟩

/-- Reads one character. -/
def step (c : Char) : Reader → Outcome Reader
  | innermost l =>
    if l.finished then .failed (innermost l) .finished
    else if c = '(' then
      ⟨enclosing { l.advance with depth := 1 } (startAt l.advance.position), [.opened l.position],
        none⟩
    else (l.frame.readChar c l.position).map fun f => innermost (l.advance.withFrame f)
  | enclosing l inner =>
    if l.finished then .failed (enclosing l inner) .finished
    else if c = '(' then
      (inner.step c).map (enclosing { l.advance with depth := l.depth + 1 })
    else if c = ')' then
      if l.depth = 1 then closeGroup { l.advance with depth := 0 } inner
      else (inner.step c).map (enclosing { l.advance with depth := l.depth - 1 })
    else (inner.step c).map (enclosing l.advance)

/-- Reads characters up to the first that fails. -/
def feed : List Char → Reader → Outcome Reader
  | [], r => .done r
  | c :: cs, r => (r.step c).andThen (feed cs)

/-- Reads a whole text. -/
def read (text : String) : Outcome Reader := (feed text.toList start).andThen finish

theorem feed_append (cs ds : List Char) (r : Reader) :
    feed (cs ++ ds) r = (feed cs r).andThen (feed ds) := by
  induction cs generalizing r with
  | nil => exact (Outcome.done_andThen r (feed ds)).symm
  | cons c cs ih =>
    rw [List.cons_append, feed, feed, Outcome.andThen_assoc]
    exact congrArg _ (funext ih)

/-- The value of what was read, if any operand was. -/
def value (r : Reader) : Except EvalError (Option Float) :=
  match r.root with
  | none => .ok none
  | some t => t.evaluate.map some

end Reader

end Reckoner
