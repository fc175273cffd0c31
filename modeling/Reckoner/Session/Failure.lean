/-!
# Failures of a session

A session ends early only if its input or its output fails. The failure tells what was being done
and what stopped it.
-/
namespace Reckoner.Session

/-- What stopped a session. -/
inductive Cause where
  | writeLimit
  | flushLimit
  | readLimit
  /-- A line that is no text. -/
  | notText
  /-- What a device says of itself. -/
  | device (message : String)
deriving DecidableEq, Repr

def Cause.message : Cause → String
  | writeLimit => "write limit reached"
  | flushLimit => "flush limit reached"
  | readLimit => "read limit reached"
  | notText => "stream did not contain valid UTF-8"
  | device message => message

/-- What a session was doing when it was stopped. -/
inductive Failure where
  | prompting (cause : Cause)
  | reading (cause : Cause)
  | answering (cause : Cause)
deriving DecidableEq, Repr

namespace Failure

/-- The messages of a failure, the most general one first. -/
def messages : Failure → List String
  | prompting cause => [cause.message]
  | reading cause => ["failed to read expression", cause.message]
  | answering cause => ["failed to write result", cause.message]

/-- What is said of a failure to the user. -/
def report (f : Failure) : String :=
  match f.messages with
  | [] => ""
  | message :: [] => "Error: " ++ message ++ "\n"
  | message :: causes =>
    "Error: " ++ message ++ "\n\nCaused by:\n" ++ String.join (causes.map fun c => "    " ++ c ++ "\n")

end Failure

/-- What is said at the end of a session, on the side of its answers. -/
def farewell : Option Failure → String
  | none => ""
  | some f => f.report

/-- The code that the program exits with. -/
def exitCode : Option Failure → UInt32
  | none => 0
  | some _ => 1

end Reckoner.Session
