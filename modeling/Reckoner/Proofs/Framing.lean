import Reckoner.Proofs.Culprit
import Reckoner.Proofs.RoundTrip
import Reckoner.Session.Script
/-!
# What is said in one line

Numbers and trees are written without line breaks, and so is every message. A message may repeat
what was read, but only a character that is not blank or the characters of a numeral, so what was
read does not break it.

Results:
* `plain_message_of_read`: the message of a text that cannot be read has no line break.
* `isLine_of_mem_answers`: every answer is one line.
* `length_answers`: how many answers there are to an expression.
-/
namespace Reckoner

/-! ## Texts without line breaks -/

/-- The text has no line break. -/
def Plain (text : String) : Prop := '\n' ∉ text.toList

instance (text : String) : Decidable (Plain text) := inferInstanceAs (Decidable ('\n' ∉ text.toList))

theorem Plain.append {s t : String} (hs : Plain s) (ht : Plain t) : Plain (s ++ t) := by
  rw [Plain, String.toList_append, List.mem_append]
  exact not_or.2 ⟨hs, ht⟩

theorem plain_toString_char {c : Char} (h : c ≠ '\n') : Plain c.toString := by
  simpa [Plain] using h.symm

theorem plain_toString_nat (n : Nat) : Plain (toString n) := by
  intro h
  rw [Nat.toString_eq_repr, Nat.toList_repr] at h
  have digit : '\n'.isDigit = true := Nat.isDigit_of_mem_toDigits (by decide) (by decide) h
  revert digit
  decide

theorem plain_symbol (op : Op) : Plain op.symbol.toString := by
  cases op <;> decide

/-- The line break is no character of a numeral. -/
theorem not_mem_of_accepts {cs : List Char} (h : ∀ c ∈ cs, Numeral.accepts c = true) :
    '\n' ∉ cs := by
  intro hm
  have := h _ hm
  revert this
  decide

/-! ## Numbers and trees -/

theorem plain_numberText (x : Float) : Plain (numberText x) := by
  have magnitude (m : Magnitude) : '\n' ∉ m.chars := by
    unfold Magnitude.chars
    split
    · exact not_mem_of_accepts fun c hc => Numeral.accepts_of_mem_chars hc
    · decide
  unfold numberText
  split
  · rename_i s hs
    rw [Plain, String.toList_ofList, Signed.chars]
    split
    · exact fun h => magnitude _ (List.mem_of_ne_of_mem (by decide) h)
    · exact magnitude _
  · decide

theorem Tree.plain_text (t : Tree) : Plain t.text := by
  induction t with
  | number x => exact plain_numberText x
  | pending op left ih =>
    have operand : Plain ("(" ++ left.text) := .append (by decide) ih
    have operator : Plain ("(" ++ left.text ++ " " ++ op.symbol.toString) :=
      .append (operand.append (by decide)) (plain_symbol op)
    exact operator.append (by decide)
  | binary op left right ihl ihr =>
    have operand : Plain ("(" ++ left.text) := .append (by decide) ihl
    have operator : Plain ("(" ++ left.text ++ " " ++ op.symbol.toString) :=
      .append (operand.append (by decide)) (plain_symbol op)
    exact ((operator.append (by decide)).append ihr).append (by decide)

/-! ## Messages -/

theorem EvalError.plain_message (e : EvalError) : Plain e.message := by
  obtain ⟨op⟩ := e
  exact .append (.append (by decide) (plain_symbol op)) (by decide)

/-- An error that points at what is wrong repeats no line break. -/
theorem plain_message_of_blames {cs : List Char} {e : ReadError} (h : Blames cs e) :
    Plain e.message := by
  cases e with
  | unexpected c p =>
    obtain ⟨-, blank, -⟩ := h
    have visible : c ≠ '\n' := by
      rintro rfl
      revert blank
      decide
    exact .append (.append (.append (by decide) (plain_toString_char visible)) (by decide))
      (plain_toString_nat p)
  | malformed text span =>
    have digits : Plain text := by
      rw [Plain, h.1.text_eq]
      exact not_mem_of_accepts fun c hc => accepts_of_mem_digitsAt hc
    have place : Plain span.text :=
      .append (.append (plain_toString_nat _) (by decide)) (plain_toString_nat _)
    exact .append (.append (.append (by decide) digits) (by decide)) place
  | unclosed depth =>
    exact .append (.append (by decide) (plain_toString_nat depth)) (by decide)
  | finished => exact h.elim

/-- **What is read does not break the message** that says why it cannot be read. -/
theorem plain_message_of_read {text : String} {e : ReadError}
    (h : (Reader.read text).toExcept = .error e) : Plain e.message := by
  have fails := Reader.readAll_toList text
  rw [h] at fails
  exact plain_message_of_blames (blames_of_readAll fails)

/-! ## Answers -/

namespace Session

/-- The text is one line: it has one line break, at its end. -/
def IsLine (text : String) : Prop := ∃ body, Plain body ∧ text = body ++ "\n"

def Act.answer? : Act → Option String
  | answer text => some text
  | _ => none

/-- What is written in answer to an expression. -/
def answers (o : Options) (expression : String) : List String :=
  (reply o expression).filterMap Act.answer?

theorem filterMap_note (events : List Event) : (events.map Act.note).filterMap Act.answer? = [] := by
  rw [List.filterMap_map, List.filterMap_eq_nil_iff]
  exact fun _ _ => rfl

theorem answers_of_error {o : Options} {expression : String} {e : ReadError}
    (h : (Reader.read expression).toExcept = .error e) :
    answers o expression = [e.message ++ "\n"] := by
  rw [answers, reply, List.filterMap_append, filterMap_note, h]
  rfl

theorem answers_of_ok {o : Options} {expression : String} {r : Reader}
    (h : (Reader.read expression).toExcept = .ok r) :
    answers o expression =
      (if o.showTree then [treeLine r.root] else []) ++ [valueLine r.value] := by
  rw [answers, reply, List.filterMap_append, filterMap_note, h]
  cases o.showTree <;> rfl

theorem isLine_treeLine (root : Option Tree) : IsLine (treeLine root) := by
  cases root with
  | none => exact ⟨"Parsed: (empty)", by decide, rfl⟩
  | some t => exact ⟨"Parsed: " ++ t.text, .append (by decide) t.plain_text, rfl⟩

theorem isLine_valueLine (value : Except EvalError (Option Float)) : IsLine (valueLine value) := by
  match value with
  | .ok (some x) =>
    exact ⟨"Result: " ++ numberText x, .append (by decide) (plain_numberText x), rfl⟩
  | .ok none => exact ⟨"Result: (none)", by decide, rfl⟩
  | .error e => exact ⟨e.message, e.plain_message, rfl⟩

/-- **Every answer** is one line, whatever was read. -/
theorem isLine_of_mem_answers {o : Options} {expression text : String}
    (h : text ∈ answers o expression) : IsLine text := by
  cases hr : (Reader.read expression).toExcept with
  | error e =>
    rw [answers_of_error hr, List.mem_singleton] at h
    exact ⟨e.message, plain_message_of_read hr, h⟩
  | ok r =>
    rw [answers_of_ok hr, List.mem_append, List.mem_ite_nil_right, List.mem_singleton,
      List.mem_singleton] at h
    obtain ⟨-, rfl⟩ | rfl := h
    · exact isLine_treeLine r.root
    · exact isLine_valueLine r.value

/-- There are two answers to an expression that can be read and whose tree is shown, and one to every
other. -/
theorem length_answers (o : Options) (expression : String) :
    (answers o expression).length =
      if o.showTree ∧ (Reader.read expression).error? = none then 2 else 1 := by
  cases hr : (Reader.read expression).toExcept with
  | error e =>
    rw [answers_of_error hr, if_neg]
    · rfl
    · rw [Outcome.toExcept_eq_error_iff.1 hr]
      simp
  | ok r =>
    rw [answers_of_ok hr, (Outcome.toExcept_eq_ok_iff.1 hr).1]
    cases o.showTree <;> rfl

end Session

end Reckoner
