import Reckoner.Session.Script
/-!
# The transcript of a session

What remains of a session that was performed on a device: the bytes written, the events, and the
failure that ended it. A device may refuse to take more than a number of bytes, or more than a
number of flushes; then the session ends with the first act that fails.
-/
namespace Reckoner.Session

/-- What a device still accepts; nothing stands for no limit. -/
structure Device where
  bytes? : Option Nat
  flushes? : Option Nat
deriving DecidableEq, Repr

structure Transcript where
  output : List UInt8
  events : List Event
  failure? : Option Failure
deriving DecidableEq

namespace Transcript

def empty : Transcript := ⟨[], [], none⟩

def append (t u : Transcript) : Transcript :=
  ⟨t.output ++ u.output, t.events ++ u.events, u.failure?⟩

end Transcript

/-- The bytes of a text. -/
def encode (text : String) : List UInt8 := text.toUTF8.data.toList

namespace Device

def unlimited : Device := ⟨none, none⟩

/-- Writes bytes as far as the device takes them. To write nothing always succeeds. -/
def write (d : Device) (bytes : List UInt8) (refused : Failure) : Device × Transcript :=
  match d.bytes? with
  | none => (d, ⟨bytes, [], none⟩)
  | some n =>
    if bytes.length ≤ n then ({ d with bytes? := some (n - bytes.length) }, ⟨bytes, [], none⟩)
    else ({ d with bytes? := some 0 }, ⟨bytes.take n, [], some refused⟩)

/-- Performs one act. -/
def act (d : Device) : Act → Device × Transcript
  | .prompt text => d.write (encode text) (.prompting .writeLimit)
  | .flush =>
    match d.flushes? with
    | none => (d, .empty)
    | some 0 => (d, ⟨[], [], some (.prompting .flushLimit)⟩)
    | some (n + 1) => ({ d with flushes? := some n }, .empty)
  | .read cause? => (d, ⟨[], [], cause?.map .reading⟩)
  | .note event => (d, ⟨[], [event], none⟩)
  | .answer text => d.write (encode text) (.answering .writeLimit)

/-- Performs acts up to the first that fails. -/
def perform (d : Device) : List Act → Transcript
  | [] => .empty
  | a :: acts =>
    match d.act a with
    | (d, t) => if t.failure?.isSome then t else t.append (d.perform acts)

end Device

/-- A whole session. -/
def run (o : Options) (d : Device) (input : Input) : Transcript := d.perform (script o input)

end Reckoner.Session
