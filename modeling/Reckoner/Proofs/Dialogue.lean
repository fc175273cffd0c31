import Reckoner.Proofs.Framing
import Reckoner.Proofs.Scripts
/-!
# Sessions line by line

Without limits a session goes on from one line to the next and remembers nothing. So what it writes
for an input that ends at a line is the start of what it writes for a longer one, and each line adds
lines of its own, which nothing that was read can break up.

Results:
* `script_flatMap_encode`: the script of lines, and of what is behind them.
* `lines_flatMap_encode`: what is written line by line is read line by line.
* `dialogue_composes`: how the lines of an input and what is behind them make up a session.
-/
namespace Reckoner.Session

/-! ## Lines of text -/

theorem IsLine.exists_encode {text : String} (h : IsLine text) :
    ∃ line, lineFeed ∉ line ∧ encode text = line ++ [lineFeed] := by
  obtain ⟨body, plain, rfl⟩ := h
  exact ⟨encode body, mt lineFeed_mem_encode_iff.1 plain, encode_append body "\n"⟩

theorem IsLine.behind {text prompt : String} (h : IsLine text) (hp : Plain prompt) :
    IsLine (prompt ++ text) := by
  obtain ⟨body, plain, rfl⟩ := h
  exact ⟨prompt ++ body, hp.append plain, (String.append_assoc).symm⟩

/-- What is written line by line is read line by line. -/
theorem lines_flatMap_encode {texts : List String} (h : ∀ text ∈ texts, IsLine text)
    (bytes : List UInt8) :
    lines (texts.flatMap encode ++ bytes) = texts.map encode ++ lines bytes := by
  induction texts with
  | nil => rfl
  | cons text texts ih =>
    rw [List.forall_mem_cons] at h
    obtain ⟨line, free, split⟩ := h.1.exists_encode
    rw [List.flatMap_cons, List.map_cons, List.cons_append, List.append_assoc, ← ih h.2, split,
      List.append_assoc, List.singleton_append, lines_append_lineFeed free]

/-- A text that is empty or ends with a line break is made up of lines. -/
theorem exists_isLine {text : String} (h : text = "" ∨ text.toList.getLast? = some '\n') :
    ∃ texts : List String, (∀ text ∈ texts, IsLine text) ∧ encode text = texts.flatMap encode := by
  have ends : text.toList = [] ∨ text.toList.getLast? = some '\n' := h.imp (congrArg _) id
  rw [encode_eq]
  generalize text.toList = cs at ends
  induction cs using separated_induction '\n' with
  | last cs hn =>
    rcases ends with rfl | last
    · exact ⟨[], fun _ h => absurd h List.not_mem_nil, rfl⟩
    · exact absurd (List.mem_of_getLast? last) hn
  | next cs ds hn ih =>
    have rest : ds = [] ∨ ds.getLast? = some '\n' := by
      cases ds with
      | nil => exact .inl rfl
      | cons d ds => simpa using ends
    obtain ⟨texts, lines, join⟩ := ih rest
    have plain : Plain (String.ofList cs) := by rwa [Plain, String.toList_ofList]
    refine ⟨(String.ofList cs ++ "\n") :: texts, ?_, ?_⟩
    · exact List.forall_mem_cons.2 ⟨⟨_, plain, rfl⟩, lines⟩
    · rw [List.flatMap_append, List.flatMap_cons, join, List.flatMap_cons, encode_append,
        encode_eq (String.ofList cs), String.toList_ofList, List.append_assoc]
      rfl

/-! ## The script of lines -/

section
variable {o : Options}

/-- Lines are answered one after the other, and then what is behind them. -/
theorem script_flatMap_encode {texts : List String} (h : ∀ text ∈ texts, IsLine text)
    (bytes : List UInt8) (isCut : Bool) :
    script o ⟨texts.flatMap encode ++ bytes, isCut⟩ =
      texts.flatMap (turn o) ++ script o ⟨bytes, isCut⟩ := by
  induction texts with
  | nil => rfl
  | cons text texts ih =>
    rw [List.forall_mem_cons] at h
    obtain ⟨line, free, split⟩ := h.1.exists_encode
    have read : decode? (line ++ [lineFeed]) = some text := by rw [← split, decode?_encode]
    rw [List.flatMap_cons, List.flatMap_cons, List.append_assoc, List.append_assoc, split,
      List.append_assoc, List.singleton_append, script_append_lineFeed free, read, ih h.2]

/-- Without limits no line is in the way of what is behind it. -/
theorem perform_turns (texts : List String) (acts : List Act) :
    Device.unlimited.perform (texts.flatMap (turn o) ++ acts) =
      Transcript.append ⟨written (texts.flatMap (turn o)), noted (texts.flatMap (turn o)), none⟩
        (Device.unlimited.perform acts) := by
  refine Device.perform_append (Device.failure?_perform_eq_none_iff.2 ?_) acts
  refine Device.admits_unlimited.2 ?_
  intro cause? hm
  obtain ⟨text, -, ht⟩ := List.mem_flatMap.1 hm
  exact cause?_of_mem_turn ht

/-! ## What is written -/

/-- Notes write nothing. -/
theorem written_of_notes_and_answers {acts : List Act}
    (h : ∀ a ∈ acts, (∃ event, a = .note event) ∨ ∃ text, a = .answer text) :
    written acts = (acts.filterMap Act.answer?).flatMap encode := by
  induction acts with
  | nil => rfl
  | cons a acts ih =>
    rw [List.forall_mem_cons] at h
    obtain ⟨⟨event, rfl⟩ | ⟨text, rfl⟩, rest⟩ := h
    · exact ih rest
    · exact congrArg (encode text ++ ·) (ih rest)

theorem written_reply (o : Options) (expression : String) :
    written (reply o expression) = (answers o expression).flatMap encode :=
  written_of_notes_and_answers fun _ => mem_reply

theorem written_turn (text : String) :
    written (turn o text) = encode o.prompt ++ (answers o (trimLine text)).flatMap encode := by
  rw [turn, written_append, written_cons, written_reply]
  simp [ask, written, Act.bytes]

end

/-! ## Sessions without limits -/

section
variable (o : Options)

/-- What remains of a session without limits. -/
def dialogue (bytes : List UInt8) : Transcript := run o .unlimited ⟨bytes, false⟩

/-- What is written in answer to a line. -/
def answersTo (line : List UInt8) : List String :=
  match decode? line with
  | none => []
  | some text => answers o (trimLine text)

/-- What is written for a line: the prompt, and the answers. -/
def exchange (line : List UInt8) : List UInt8 :=
  encode o.prompt ++ (answersTo o line).flatMap encode

/-- The lines that are written for a line: the prompt stands in front of the first answer. -/
def exchangeLines (line : List UInt8) : List String :=
  match answersTo o line with
  | [] => []
  | first :: rest => (o.prompt ++ first) :: rest

/-- How a session over a text and further bytes is made up: `a` is whole lines, and `b` anything. -/
structure Composes (a : String) (b : List UInt8) : Prop where
  succeeds : (dialogue o (encode a)).failure? = none
  /-- Behind the last line the prompt is written once more. -/
  output : (dialogue o (encode a)).output = (lines (encode a)).flatMap (exchange o) ++ encode o.prompt
  continues : (dialogue o (encode a ++ b)).output =
    (lines (encode a)).flatMap (exchange o) ++ (dialogue o b).output
  events : (dialogue o (encode a ++ b)).events = (dialogue o (encode a)).events ++ (dialogue o b).events
  failure : (dialogue o (encode a ++ b)).failure? = (dialogue o b).failure?
  /-- Every line is read as a text, and answered in one line, or in two if its tree is shown. -/
  answered : ∀ line ∈ lines (encode a), ∃ text, decode? line = some text ∧
    (∀ answer ∈ answersTo o line, IsLine answer) ∧ (answersTo o line).length =
      if o.showTree ∧ (Reader.read (trimLine text)).error? = none then 2 else 1
  /-- Without line breaks in the prompt, each of these is one line of the output. -/
  framed : Plain o.prompt →
    lines ((lines (encode a)).flatMap (exchange o)) =
        ((lines (encode a)).flatMap (exchangeLines o)).map encode ∧
      (∀ line ∈ (lines (encode a)).flatMap (exchangeLines o), IsLine line) ∧
      ∀ line ∈ lines (encode a), (exchangeLines o line).length = (answersTo o line).length

end

section
variable {o : Options} {text : String} {line : List UInt8}

theorem answersTo_encode (text : String) : answersTo o (encode text) = answers o (trimLine text) := by
  rw [answersTo, decode?_encode]

theorem exchange_encode (text : String) : exchange o (encode text) = written (turn o text) := by
  rw [exchange, answersTo_encode, written_turn]

theorem written_turns (texts : List String) :
    written (texts.flatMap (turn o)) = (texts.map encode).flatMap (exchange o) := by
  rw [written, List.flatMap_assoc, List.flatMap_map]
  exact List.flatMap_congr fun text _ => (exchange_encode text).symm

/-- **A line is answered** in one line, or in two. -/
theorem answered_encode (text : String) :
    (∀ answer ∈ answersTo o (encode text), IsLine answer) ∧
      (answersTo o (encode text)).length =
        if o.showTree ∧ (Reader.read (trimLine text)).error? = none then 2 else 1 := by
  rw [answersTo_encode]
  exact ⟨fun _ h => isLine_of_mem_answers h, length_answers o (trimLine text)⟩

theorem answersTo_encode_ne_nil (text : String) : answersTo o (encode text) ≠ [] := by
  intro none
  have count := (answered_encode (o := o) text).2
  rw [none, List.length_nil] at count
  split at count <;> cases count

theorem length_exchangeLines (line : List UInt8) :
    (exchangeLines o line).length = (answersTo o line).length := by
  rw [exchangeLines]
  split <;> rename_i answers <;> rw [answers]
  rfl

theorem flatMap_exchangeLines (h : answersTo o line ≠ []) :
    (exchangeLines o line).flatMap encode = exchange o line := by
  rw [exchange, exchangeLines]
  split <;> rename_i answers
  · exact absurd answers h
  · rw [answers, List.flatMap_cons, List.flatMap_cons, encode_append, List.append_assoc]

theorem isLine_of_mem_exchangeLines (hp : Plain o.prompt)
    (h : ∀ answer ∈ answersTo o line, IsLine answer) :
    ∀ shown ∈ exchangeLines o line, IsLine shown := by
  rw [exchangeLines]
  split <;> rename_i answers
  · exact fun _ hm => absurd hm List.not_mem_nil
  · rw [answers, List.forall_mem_cons] at h
    exact List.forall_mem_cons.2 ⟨h.1.behind hp, h.2⟩

theorem dialogue_nil (o : Options) : dialogue o [] = ⟨encode o.prompt, [], none⟩ := by
  simp [dialogue, run, script_nil, ask, Device.perform, Device.act, Device.write, Device.unlimited,
    Transcript.append, Transcript.empty]

/-- What lines leave of a session stands in front of what remains of the rest. -/
theorem dialogue_flatMap_encode {texts : List String} (h : ∀ text ∈ texts, IsLine text)
    (bytes : List UInt8) :
    dialogue o (texts.flatMap encode ++ bytes) =
      Transcript.append ⟨(texts.map encode).flatMap (exchange o), noted (texts.flatMap (turn o)), none⟩
        (dialogue o bytes) := by
  rw [dialogue, run, script_flatMap_encode h, perform_turns, written_turns]
  rfl

end

/-- **Sessions are made up of lines.** What a session does with whole lines stands in front of what it
does with whatever is behind them, and each line adds as many lines to the output as it has answers. -/
theorem dialogue_composes (o : Options) {a : String} (h : a = "" ∨ a.toList.getLast? = some '\n')
    (b : List UInt8) : Composes o a b := by
  obtain ⟨texts, isLine, join⟩ := exists_isLine h
  have split : lines (encode a) = texts.map encode := by
    have := lines_flatMap_encode isLine []
    rwa [List.append_nil, ← join, lines, List.append_nil] at this
  have whole : dialogue o (encode a) =
      ⟨(texts.map encode).flatMap (exchange o) ++ encode o.prompt, noted (texts.flatMap (turn o)),
        none⟩ := by
    have := dialogue_flatMap_encode (o := o) isLine []
    rw [List.append_nil, ← join, dialogue_nil] at this
    simpa [Transcript.append] using this
  have longer := dialogue_flatMap_encode (o := o) isLine b
  rw [← join] at longer
  constructor
  · rw [whole]
  · rw [whole, split]
  · rw [longer, split]; rfl
  · rw [longer, whole]; rfl
  · rw [longer]; rfl
  · rw [split]
    intro line hl
    obtain ⟨text, -, rfl⟩ := List.mem_map.1 hl
    exact ⟨text, decode?_encode text, answered_encode text⟩
  · intro hp
    rw [split]
    have shown : ∀ line ∈ (texts.map encode).flatMap (exchangeLines o), IsLine line := by
      intro line hl
      obtain ⟨bytes, hb, hl⟩ := List.mem_flatMap.1 hl
      obtain ⟨text, -, rfl⟩ := List.mem_map.1 hb
      exact isLine_of_mem_exchangeLines hp (answered_encode text).1 line hl
    have same : (texts.map encode).flatMap (exchange o) =
        ((texts.map encode).flatMap (exchangeLines o)).flatMap encode := by
      rw [List.flatMap_assoc]
      refine List.flatMap_congr fun line hl => ?_
      obtain ⟨text, -, rfl⟩ := List.mem_map.1 hl
      exact (flatMap_exchangeLines (answersTo_encode_ne_nil text)).symm
    refine ⟨?_, shown, fun line _ => length_exchangeLines line⟩
    have := lines_flatMap_encode shown []
    rwa [List.append_nil, ← same, lines, List.append_nil] at this

/-- Bad expressions, and a line that is no text behind them. -/
theorem dialogue_composes_bad :
    ("3&4\r\n3+\n\n".toList.getLast? = some '\n') ∧
      Composes ⟨"> ", true⟩ "3&4\r\n3+\n\n" [0xFF] :=
  ⟨by decide, dialogue_composes ⟨"> ", true⟩ (.inr (by decide)) [0xFF]⟩

end Reckoner.Session
