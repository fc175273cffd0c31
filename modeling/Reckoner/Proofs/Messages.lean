import Mathlib.Data.List.DropRight
import Reckoner.Calculate
/-!
# Messages

A message tells its error. What could not be read is repeated in it as it is, so a malformed text may
hold quotation marks, positions and all else that a message holds. It is read from its right end:
behind the text there are only two numbers and what is written around them.

Results:
* `cutNumber_append`: a number at the end of a text is found, whatever stands in front of it.
* `ofMessage?_message`: every error is read back from its message.
* `message_identifies`: no two errors have one message.
-/
namespace Reckoner.CalcError

/-! ## Reading a message -/

/-- What stands in front of the digits at the end of a text, and the number that they denote. -/
def cutNumber (cs : List Char) : List Char × Nat :=
  (cs.rdropWhile Char.isDigit, Nat.ofDigitChars 10 (cs.rtakeWhile Char.isDigit) 0)

/-- What stands between two texts. -/
def between? (front back cs : List Char) : Option (List Char) :=
  (cs.dropPrefix? front).bind fun rest => rest.dropSuffix? back

def unexpected? (message : List Char) : Option ReadError :=
  let (rest, position) := cutNumber message
  match between? "Unexpected character (".toList ") found at position ".toList rest with
  | some [c] => some (.unexpected c position)
  | _ => none

def malformed? (message : List Char) : Option ReadError :=
  let (rest, stop) := cutNumber message
  (rest.dropSuffix? "-".toList).bind fun rest =>
    let (rest, start) := cutNumber rest
    (between? "Malformed number \"".toList "\" at ".toList rest).map fun text =>
      .malformed (String.ofList text) ⟨start, stop⟩

def unclosed? (message : List Char) : Option ReadError :=
  (between? "Expected ')' to close ".toList " open group(s)".toList message).map fun depth =>
    .unclosed (Nat.ofDigitChars 10 depth 0)

def finished? (message : List Char) : Option ReadError :=
  if message = "Parser already finished".toList then some .finished else none

def missingOperand? (message : List Char) : Option EvalError :=
  match between? "Second argument of (".toList ") not set".toList message with
  | some [c] => (Op.ofChar? c).map .missingOperand
  | _ => none

/-- The error of which this is the message. The first letter tells the kind. -/
def ofMessage? (message : String) : Option CalcError :=
  match message.toList.head? with
  | some 'U' => (unexpected? message.toList).map .read
  | some 'M' => (malformed? message.toList).map .read
  | some 'E' => (unclosed? message.toList).map .read
  | some 'P' => (finished? message.toList).map .read
  | some 'S' => (missingOperand? message.toList).map .evaluate
  | _ => none

/-! ## Numbers and texts around them -/

theorem toList_toString (n : Nat) : (toString n).toList = Nat.toDigits 10 n := by
  rw [Nat.toString_eq_repr, Nat.toList_repr]

/-- Digits are cut off from behind up to a text that does not end in a digit. -/
theorem cutNumber_append (cs : List Char) {back : List Char} {c : Char}
    (last : back.getLast? = some c) (plain : c.isDigit = false) (n : Nat) :
    cutNumber (cs ++ back ++ (toString n).toList) = (cs ++ back, n) := by
  have digits : ∀ d ∈ (Nat.toDigits 10 n).reverse, d.isDigit = true := by
    intro d hd
    exact Nat.isDigit_of_mem_toDigits (by decide) (by decide) (List.mem_reverse.1 hd)
  obtain ⟨rest, reversed⟩ : ∃ rest, (cs ++ back).reverse = c :: rest := by
    rw [← List.head?_eq_some_iff, List.head?_reverse, List.getLast?_append, last]
    rfl
  have stops : ¬ c.isDigit = true := by simp [plain]
  have front : (cs ++ back ++ Nat.toDigits 10 n).rdropWhile Char.isDigit = cs ++ back := by
    rw [List.rdropWhile, List.reverse_append, List.dropWhile_append_of_pos digits, reversed,
      List.dropWhile_cons_of_neg stops, ← reversed, List.reverse_reverse]
  have number : (cs ++ back ++ Nat.toDigits 10 n).rtakeWhile Char.isDigit = Nat.toDigits 10 n := by
    rw [List.rtakeWhile, List.reverse_append, List.takeWhile_append_of_pos digits, reversed,
      List.takeWhile_cons_of_neg stops, List.append_nil, List.reverse_reverse]
  rw [toList_toString, cutNumber, front, number, Nat.ofDigitChars_ten_toDigits]

theorem dropSuffix?_append (cs back : List Char) : (cs ++ back).dropSuffix? back = some cs :=
  List.dropSuffix?_eq_some_iff.2 ⟨back, rfl, beq_self_eq_true back⟩

theorem between?_append (front cs back : List Char) :
    between? front back (front ++ cs ++ back) = some cs := by
  have rest : (front ++ cs ++ back).dropPrefix? front = some (cs ++ back) := by
    rw [List.dropPrefix?_eq_some_iff, List.append_assoc]
    exact ⟨front, rfl, beq_self_eq_true front⟩
  rw [between?, rest]
  exact dropSuffix?_append cs back

theorem head?_append {front : String} {c : Char} (h : front.toList.head? = some c) (rest : String) :
    (front ++ rest).toList.head? = some c := by
  rw [String.toList_append, List.head?_append, h]
  rfl

/-! ## Each kind of error -/

theorem unexpected?_message (c : Char) (p : Position) :
    unexpected? (ReadError.unexpected c p).message.toList = some (.unexpected c p) := by
  have message : (ReadError.unexpected c p).message.toList =
      "Unexpected character (".toList ++ [c] ++ ") found at position ".toList ++
        (toString p).toList := by
    unfold ReadError.message
    simp only [String.toList_append, Char.toString_eq_singleton, String.toList_singleton]
  have last : ") found at position ".toList.getLast? = some ' ' := by decide +kernel
  rw [message, unexpected?, cutNumber_append _ last rfl]
  simp only [between?_append]

/-- The text of a malformed numeral is what is left between the opening words and the span, which is
cut off from behind. -/
theorem malformed?_message (text : String) (span : Span) :
    malformed? (ReadError.malformed text span).message.toList = some (.malformed text span) := by
  have message : (ReadError.malformed text span).message.toList =
      "Malformed number \"".toList ++ text.toList ++ "\" at ".toList ++
        (toString span.start).toList ++ "-".toList ++ (toString span.stop).toList := by
    unfold ReadError.message Span.text
    simp only [String.toList_append, List.append_assoc]
  have hyphen : "-".toList.getLast? = some '-' := by decide +kernel
  have last : "\" at ".toList.getLast? = some ' ' := by decide +kernel
  rw [message, malformed?, cutNumber_append _ hyphen rfl]
  simp only [dropSuffix?_append, Option.bind_some]
  rw [cutNumber_append _ last rfl]
  simp only [between?_append, Option.map_some, String.ofList_toList]

theorem unclosed?_message (depth : Nat) :
    unclosed? (ReadError.unclosed depth).message.toList = some (.unclosed depth) := by
  unfold ReadError.message
  rw [String.toList_append, String.toList_append, unclosed?, between?_append, Option.map_some,
    toList_toString, Nat.ofDigitChars_ten_toDigits]

theorem missingOperand?_message (op : Op) :
    missingOperand? (EvalError.missingOperand op).message.toList = some (.missingOperand op) := by
  have message : (EvalError.missingOperand op).message.toList =
      "Second argument of (".toList ++ [op.symbol] ++ ") not set".toList := by
    unfold EvalError.message
    simp only [String.toList_append, Char.toString_eq_singleton, String.toList_singleton]
  rw [message, missingOperand?, between?_append]
  simp only [Op.ofChar?_symbol, Option.map_some]

/-- Every error is read back from its message. -/
theorem ofMessage?_message (e : CalcError) : ofMessage? e.message = some e := by
  cases e with
  | read e =>
    cases e with
    | unexpected c p =>
      have opening : "Unexpected character (".toList.head? = some 'U' := by decide +kernel
      have first : (ReadError.unexpected c p).message.toList.head? = some 'U' :=
        head?_append (head?_append (head?_append opening _) _) _
      simp only [ofMessage?, message, first, unexpected?_message, Option.map_some]
    | malformed text span =>
      have opening : "Malformed number \"".toList.head? = some 'M' := by decide +kernel
      have first : (ReadError.malformed text span).message.toList.head? = some 'M' :=
        head?_append (head?_append (head?_append opening _) _) _
      simp only [ofMessage?, message, first, malformed?_message, Option.map_some]
    | unclosed depth =>
      have opening : "Expected ')' to close ".toList.head? = some 'E' := by decide +kernel
      have first : (ReadError.unclosed depth).message.toList.head? = some 'E' :=
        head?_append (head?_append opening _) _
      simp only [ofMessage?, message, first, unclosed?_message, Option.map_some]
    | finished => decide +kernel
  | evaluate e =>
    obtain ⟨op⟩ := e
    have opening : "Second argument of (".toList.head? = some 'S' := by decide +kernel
    have first : (EvalError.missingOperand op).message.toList.head? = some 'S' :=
      head?_append (head?_append opening _) _
    simp only [ofMessage?, message, first, missingOperand?_message, Option.map_some]

/-- **A message identifies its error**: no two errors have the same message, and each can be read
back from its own, also a malformed text with its span, whatever the text holds. -/
theorem message_identifies :
    (∀ e f : CalcError, e.message = f.message ↔ e = f) ∧
      ∀ e : CalcError, ofMessage? e.message = some e := by
  refine ⟨?_, ofMessage?_message⟩
  intro e f
  constructor
  · intro same
    have read : some e = some f := by
      rw [← ofMessage?_message e, same, ofMessage?_message f]
    exact Option.some.inj read
  · rintro rfl
    rfl

example : ofMessage? "Malformed number \"1\" at 2-3\" at 0-9" =
    some (.read (.malformed "1\" at 2-3" ⟨0, 9⟩)) := by decide +kernel

end Reckoner.CalcError
