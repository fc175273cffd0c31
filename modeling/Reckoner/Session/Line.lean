/-!
# Lines

The input of a session is a sequence of bytes. A line reaches to the next line feed and includes
it; the last line may lack it.
-/
namespace Reckoner.Session

def lineFeed : UInt8 := 10

def lines : List UInt8 → List (List UInt8)
  | [] => []
  | b :: bs =>
    if b = lineFeed then [b] :: lines bs
    else
      match lines bs with
      | [] => [[b]]
      | line :: rest => (b :: line) :: rest

/-- Whether the line is whole. -/
def isTerminated (line : List UInt8) : Bool := line.getLast? = some lineFeed

/-- The text that the bytes encode in UTF-8. -/
def decode? (bytes : List UInt8) : Option String := String.fromUTF8? ⟨bytes.toArray⟩

/-- The text without the line feeds and carriage returns at its end. -/
def trimLine (line : String) : String :=
  String.ofList (line.toList.reverse.dropWhile fun c => c == '\n' || c == '\r').reverse

end Reckoner.Session
