import Reckoner.Calculate
import Reckoner.Session.Failure
import Reckoner.Session.Line
/-!
# The script of a session

What a session does, act by act, if every act succeeds: prompt, read a line, answer it, until the
input ends. An expression without a value gets its error for an answer, and the session goes on.
-/
namespace Reckoner.Session

structure Options where
  /-- Written before a line is read. -/
  prompt : String
  /-- Whether an answer shows the tree in front of the value. -/
  showTree : Bool
deriving DecidableEq, Repr

def Options.standard : Options := ⟨"Enter expression: ", true⟩

inductive Act where
  | prompt (text : String)
  | flush
  /-- Reads a line, or the end of the input, unless there is a cause to fail. -/
  | read (cause? : Option Cause)
  | note (event : Event)
  | answer (text : String)
deriving DecidableEq

def treeLine : Option Tree → String
  | some t => "Parsed: " ++ t.text ++ "\n"
  | none => "Parsed: (empty)\n"

def valueLine : Except EvalError (Option Float) → String
  | .ok (some x) => "Result: " ++ numberText x ++ "\n"
  | .ok none => "Result: (none)\n"
  | .error e => e.message ++ "\n"

/-- The answer to an expression. -/
def reply (o : Options) (expression : String) : List Act :=
  let outcome := Reader.read expression
  outcome.events.map .note ++
    match outcome.toExcept with
    | .error e => [.note (.rejected e), .answer (e.message ++ "\n")]
    | .ok r =>
      (if o.showTree then [.answer (treeLine r.root)] else []) ++ [.answer (valueLine r.value)]

/-- Asks for the next line. -/
def ask (o : Options) : List Act := [.prompt o.prompt, .flush]

/-- The input of a session; if it is cut short, it fails where it would end. -/
structure Input where
  bytes : List UInt8
  isCut : Bool

/-- Input that breaks off behind a number of bytes, if there is one. Where there are no more bytes, it
breaks off at its end. -/
def Input.limited (bytes : List UInt8) : Option Nat → Input
  | some limit => ⟨bytes.take limit, true⟩
  | none => ⟨bytes, false⟩

/-- Where a limit on the bytes that can be read cuts an input short. An input with fewer bytes is not
cut short: its end is seen. -/
def Input.cut? (bytes : List UInt8) (limit? : Option Nat) : Option Nat :=
  limit?.filter fun limit => limit ≤ bytes.length

/-- Input that cannot be read past a number of bytes. -/
def Input.upTo (bytes : List UInt8) (limit? : Option Nat) : Input :=
  .limited bytes (cut? bytes limit?)

/-- What a read gives with these lines ahead: the next line, no bytes at the end, or a cause to fail. -/
def readNext (isCut : Bool) : List (List UInt8) → Except Cause (List UInt8)
  | [] => if isCut then .error .readLimit else .ok []
  | line :: _ => if isCut && !isTerminated line then .error .readLimit else .ok line

/-- What is done with what a read gives, and whether the session goes on behind it. -/
def respond (o : Options) : Except Cause (List UInt8) → List Act × Bool
  | .error cause => ([.read (some cause)], false)
  | .ok line =>
    if line.isEmpty then ([.read none], false)
    else
      match decode? line with
      | none => ([.read (some .notText)], false)
      | some text => (.read none :: reply o (trimLine text), true)

def scriptOfLines (o : Options) (isCut : Bool) : List (List UInt8) → List Act
  | [] => ask o ++ (respond o (readNext isCut [])).1
  | line :: rest =>
    let response := respond o (readNext isCut (line :: rest))
    ask o ++ response.1 ++ if response.2 then scriptOfLines o isCut rest else []

def script (o : Options) (input : Input) : List Act := scriptOfLines o input.isCut (lines input.bytes)

end Reckoner.Session
