import Reckoner.Session.Script
/-!
# The command line

Holds a session over standard input and standard output, and reports a failure on standard error.
-/
namespace Reckoner.CommandLine

open Session

/-- The bytes up to and including the next line feed; no bytes at the end of the input. -/
partial def readLine (input : IO.FS.Stream) (line : List UInt8) : IO (List UInt8) := do
  match (← input.read 1).data.toList with
  | [] => return line.reverse
  | b :: _ => if b = lineFeed then return (b :: line).reverse else readLine input (b :: line)

/-- Performs one act on a device that has no limits of its own. -/
def perform (output : IO.FS.Stream) : Act → IO (Option Failure)
  | .prompt text => attempt (output.putStr text) .prompting
  | .flush => attempt output.flush .prompting
  | .read cause? => return cause?.map .reading
  | .note _ => return none
  | .answer text => attempt (output.putStr text) .answering
where
  attempt (effect : IO Unit) (failure : Cause → Failure) : IO (Option Failure) :=
    try
      effect
      return none
    catch e => return some (failure (.device (toString e)))

def performAll (output : IO.FS.Stream) : List Act → IO (Option Failure)
  | [] => return none
  | a :: acts => do
    match ← perform output a with
    | some failure => return some failure
    | none => performAll output acts

/-- Asks, reads and responds until the session is not to go on: the turns of `Session.scriptOfLines`, with
each line read when its turn comes. -/
partial def converse (o : Options) (input output : IO.FS.Stream) : IO (Option Failure) := do
  if let some failure ← performAll output (ask o) then return some failure
  let given ← try pure (.ok (← readLine input [])) catch e => pure (.error (.device (toString e)))
  let (acts, goesOn) := respond o given
  if let some failure ← performAll output acts then return some failure
  if goesOn then converse o input output else return none

end Reckoner.CommandLine

open Reckoner in
def main : IO UInt32 := do
  let failure? ← CommandLine.converse Session.Options.standard (← IO.getStdin) (← IO.getStdout)
  (← IO.getStderr).putStr (Session.farewell failure?)
  return Session.exitCode failure?
