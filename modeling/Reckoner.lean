import Reckoner.Number.Magnitude
import Reckoner.Number.Signed
import Reckoner.Number.Decimal
import Reckoner.Number.Shortest
import Reckoner.Number.Text
import Reckoner.Tree.Op
import Reckoner.Tree.Basic
import Reckoner.Tree.Walk
import Reckoner.Tree.Text
import Reckoner.Reader.Span
import Reckoner.Reader.Blank
import Reckoner.Reader.Error
import Reckoner.Reader.Event
import Reckoner.Reader.Numeral
import Reckoner.Reader.Outcome
import Reckoner.Reader.Frame
import Reckoner.Reader.Basic
import Reckoner.Calculate
import Reckoner.Session.Failure
import Reckoner.Session.Line
import Reckoner.Session.Script
import Reckoner.Session.Transcript
import Reckoner.Main
import Reckoner.Proofs.Frames
import Reckoner.Proofs.Calls
import Reckoner.Proofs.Nesting
import Reckoner.Proofs.Stack
import Reckoner.Proofs.Batch
import Reckoner.Proofs.BatchReader
import Reckoner.Proofs.RoundTrip
import Reckoner.Proofs.Depth
import Reckoner.Proofs.Numerals
import Reckoner.Proofs.Steps
import Reckoner.Proofs.Culprit
import Reckoner.Proofs.Recast
import Reckoner.Proofs.Relocation
import Reckoner.Proofs.Groups
import Reckoner.Proofs.LeftToRight
import Reckoner.Proofs.Invisible
import Reckoner.Proofs.Accounts
import Reckoner.Proofs.Separators
import Reckoner.Proofs.Performance
import Reckoner.Proofs.Lines
import Reckoner.Proofs.Scripts
import Reckoner.Proofs.Interruption
import Reckoner.Proofs.Framing
import Reckoner.Proofs.Dialogue
import Reckoner.Proofs.Evaluation
import Reckoner.Proofs.Hearing
import Reckoner.Proofs.Damage
import Reckoner.Proofs.Growth
import Reckoner.Proofs.Log
import Reckoner.Proofs.Unambiguous
import Reckoner.Proofs.Rounding
import Reckoner.Proofs.NearestDouble
import Reckoner.Proofs.Conversion
import Reckoner.Proofs.NoValue
import Reckoner.Proofs.Viable
import Reckoner.Proofs.Messages
import Reckoner.Proofs.History
