import Reckoner.Proofs.Stack
/-!
# What one character can do

A character that is read opens a group, closes one, or is read by the frame on the top; there it is
blank, or belongs to a numeral, or is an operator. A character that fails fails for one of two
reasons: the numeral that it ends is malformed, or it is not expected where it stands.

Results:
* `Stack.step_ok`, `Stack.step_error`: all that a stack can do with a character.
* `Stack.feed_error`: a text that fails has a first character that fails, behind others that do not.
* `Stack.readAll_ok`, `Stack.readAll_error`: what is known of a text that is read, or is not.
-/
namespace Reckoner

/-! ## Results of steps -/

section
variable {ε α β : Type} {x : Except ε α}

theorem bind_eq_ok_iff {f : α → Except ε β} {b : β} :
    x.bind f = .ok b ↔ ∃ a, x = .ok a ∧ f a = .ok b := by
  cases x <;> simp [Except.bind]

theorem bind_eq_error_iff {f : α → Except ε β} {e : ε} :
    x.bind f = .error e ↔ x = .error e ∨ ∃ a, x = .ok a ∧ f a = .error e := by
  cases x <;> simp [Except.bind]

theorem map_eq_ok_iff {f : α → β} {b : β} : x.map f = .ok b ↔ ∃ a, x = .ok a ∧ f a = b := by
  cases x <;> simp [Except.map]

theorem map_eq_error_iff {f : α → β} {e : ε} : x.map f = .error e ↔ x = .error e := by
  cases x <;> simp [Except.map]

end

namespace Outcome

variable {σ : Type} {o : Outcome σ}

theorem toExcept_eq_ok_iff {s : σ} : o.toExcept = .ok s ↔ o.error? = none ∧ o.state = s := by
  obtain ⟨t, events, _ | e⟩ := o <;> simp [toExcept]

theorem toExcept_eq_error_iff {e : ReadError} : o.toExcept = .error e ↔ o.error? = some e := by
  obtain ⟨t, events, _ | e'⟩ := o <;> simp [toExcept]

end Outcome

/-! ## Frames -/

namespace Frame

/-- Once settled, a frame has a numeral without characters: the old one, if it had none. -/
theorem settle_ok {f g : Frame} (h : f.settle.toExcept = .ok g) :
    g.numeral.text = "" ∧ g.numeral = f.numeral.take.1 := by
  obtain ⟨-, rfl⟩ := Outcome.toExcept_eq_ok_iff.1 h
  have hn := settle_numeral f
  refine ⟨?_, hn⟩
  rw [hn]
  by_cases ht : f.numeral.text = ""
  · rw [Numeral.take_empty ht]; exact ht
  · rw [Numeral.take_of_text_ne ht]; rfl

/-- Settling fails only if there are characters which are no numeral. -/
theorem settle_error {f : Frame} {e : ReadError} (h : f.settle.toExcept = .error e) :
    f.numeral.text ≠ "" ∧ Decimal.ofChars? f.numeral.text.toList = none ∧ e = f.malformed := by
  rcases f.settle_cases with ⟨-, hs⟩ | ⟨-, x, -, hs⟩ | ⟨ht, hv, hs⟩
  · rw [hs] at h; cases h
  · rw [hs, Outcome.toExcept, place_error?] at h; cases h
  · rw [hs] at h
    cases h
    exact ⟨ht, Option.map_eq_none_iff.1 hv, rfl⟩

/-- Only operators are read as operators, the minus sign of a number among them, and none leaves
characters behind. -/
theorem readOperator_ok {f g : Frame} {c : Char} {p : Position}
    (h : (f.readOperator c p).toExcept = .ok g) :
    (∃ op, c = Op.symbol op) ∧ g.numeral.text = "" := by
  rcases f.readOperator_cases c p with
    ⟨hs, ho⟩ | ⟨hs, ⟨op, t, hc, -, ho⟩ | ⟨hc, -, ho⟩ | ho⟩
  · obtain ⟨e, he⟩ := Option.isSome_iff_exists.1 hs
    rw [ho, Outcome.toExcept, he] at h
    cases h
  · obtain ⟨ht, -⟩ := settle_ok (Outcome.toExcept_eq_ok_iff.2 ⟨hs, rfl⟩)
    rw [ho] at h
    cases h
    exact ⟨⟨op, hc⟩, ht⟩
  · obtain ⟨ht, -⟩ := settle_ok (Outcome.toExcept_eq_ok_iff.2 ⟨hs, rfl⟩)
    rw [ho] at h
    cases h
    exact ⟨⟨.sub, hc⟩, ht⟩
  · rw [ho] at h; cases h

theorem readOperator_error {f : Frame} {c : Char} {p : Position} {e : ReadError}
    (h : (f.readOperator c p).toExcept = .error e) :
    f.settle.toExcept = .error e ∨ e = .unexpected c p := by
  rcases f.readOperator_cases c p with ⟨-, ho⟩ | ⟨-, ⟨op, t, -, -, ho⟩ | ⟨-, -, ho⟩ | ho⟩
  · rw [ho] at h; exact .inl h
  · rw [ho] at h; cases h
  · rw [ho] at h; cases h
  · rw [ho] at h; cases h; exact .inr rfl

/-- **A frame** reads blanks, characters of numerals, and operators. -/
theorem readChar_ok {f g : Frame} {c : Char} {p : Position}
    (h : (f.readChar c p).toExcept = .ok g) :
    (isBlank c = true ∧ g = f) ∨
      (Numeral.accepts c = true ∧ g = { f with numeral := f.numeral.push c p }) ∨
      ((∃ op, c = Op.symbol op) ∧ g.numeral.text = "") := by
  rcases f.readChar_cases c p with ⟨hb, hr⟩ | ⟨ha, hr⟩ | ⟨-, -, hr⟩
  · rw [hr] at h; cases h; exact .inl ⟨hb, rfl⟩
  · rw [hr] at h; cases h; exact .inr (.inl ⟨ha, rfl⟩)
  · rw [hr] at h; exact .inr (.inr (readOperator_ok h))

theorem readChar_error {f : Frame} {c : Char} {p : Position} {e : ReadError}
    (h : (f.readChar c p).toExcept = .error e) :
    isBlank c = false ∧ Numeral.accepts c = false ∧
      (f.settle.toExcept = .error e ∨ e = .unexpected c p) := by
  rcases f.readChar_cases c p with ⟨-, hr⟩ | ⟨-, hr⟩ | ⟨hb, ha, hr⟩
  · rw [hr] at h; cases h
  · rw [hr] at h; cases h
  · rw [hr] at h; exact ⟨hb, ha, readOperator_error h⟩

/-- No frame reads a parenthesis that closes nothing. -/
theorem readChar_close (f g : Frame) (p : Position) : (f.readChar ')' p).toExcept ≠ .ok g := by
  intro h
  rcases readChar_ok h with ⟨hb, -⟩ | ⟨ha, -⟩ | ⟨⟨op, ho⟩, -⟩
  · revert hb; decide
  · revert ha; decide
  · cases op <;> revert ho <;> decide

end Frame

/-! ## Stacks -/

namespace Stack

/-- **A character that is read** opens a group, closes one, or goes to the frame on the top. -/
theorem step_ok {m n : Stack} (hf : m.finished = false) {c : Char}
    (h : (m.step c).toExcept = .ok n) :
    (c = '(' ∧ n = ⟨Frame.empty, m.top :: m.below, m.position + 1, false⟩) ∨
      (c = ')' ∧ ∃ f fs g, m.below = f :: fs ∧ m.top.settle.toExcept = .ok g ∧
        n = ⟨g.root.elim f fun t => (f.place t).state, fs, m.position + 1, false⟩) ∨
      (c ≠ '(' ∧ c ≠ ')' ∧ ∃ g, (m.top.readChar c m.position).toExcept = .ok g ∧
        n = ⟨g, m.below, m.position + 1, false⟩) := by
  rcases step_cases hf c with ⟨hc, hs⟩ | ⟨hc, f, fs, hb, hs⟩ | ⟨ho, -, hs⟩
  · rw [hs] at h
    cases h
    exact .inl ⟨hc, rfl⟩
  · rw [hs, toExcept_close, hf] at h
    obtain ⟨g, hg, rfl⟩ := map_eq_ok_iff.1 h
    exact .inr (.inl ⟨hc, f, fs, g, hb, hg, rfl⟩)
  · rw [hs, readOwn, Outcome.toExcept_map, hf] at h
    obtain ⟨g, hr, rfl⟩ := map_eq_ok_iff.1 h
    have plain : c ≠ ')' := by
      rintro rfl
      exact Frame.readChar_close m.top g m.position hr
    exact .inr (.inr ⟨ho, plain, g, hr, rfl⟩)

/-- **A character that fails** ends a malformed numeral of a group, or is refused by the frame on
the top; that may be a parenthesis only if it closes nothing. -/
theorem step_error {m : Stack} (hf : m.finished = false) {c : Char} {e : ReadError}
    (h : (m.step c).toExcept = .error e) :
    (c = ')' ∧ m.below ≠ [] ∧ m.top.settle.toExcept = .error e) ∨
      (c ≠ '(' ∧ (c = ')' → m.below = []) ∧
        (m.top.readChar c m.position).toExcept = .error e) := by
  rcases step_cases hf c with ⟨-, hs⟩ | ⟨hc, f, fs, hb, hs⟩ | ⟨ho, hc, hs⟩
  · rw [hs] at h
    cases h
  · rw [hs, toExcept_close] at h
    exact .inl ⟨hc, by rw [hb]; exact List.cons_ne_nil f fs, map_eq_error_iff.1 h⟩
  · rw [hs, readOwn, Outcome.toExcept_map] at h
    exact .inr ⟨ho, hc, map_eq_error_iff.1 h⟩

theorem finished_of_step_ok {m n : Stack} (hf : m.finished = false) {c : Char}
    (h : (m.step c).toExcept = .ok n) : n.finished = false := by
  obtain ⟨-, rfl⟩ := Outcome.toExcept_eq_ok_iff.1 h
  exact finished_step hf c

theorem position_of_step_ok {m n : Stack} (hf : m.finished = false) {c : Char}
    (h : (m.step c).toExcept = .ok n) : n.position = m.position + 1 := by
  obtain ⟨-, rfl⟩ := Outcome.toExcept_eq_ok_iff.1 h
  exact position_step hf c

/-! ## Texts -/

theorem feed_append_of_ok {cs : List Char} {m n : Stack} (h : (feed cs m).toExcept = .ok n)
    (ds : List Char) : (feed (cs ++ ds) m).toExcept = (feed ds n).toExcept := by
  rw [toExcept_feed_append, h]
  rfl

theorem feed_append_of_error {cs : List Char} {m : Stack} {e : ReadError}
    (h : (feed cs m).toExcept = .error e) (ds : List Char) :
    (feed (cs ++ ds) m).toExcept = .error e := by
  rw [toExcept_feed_append, h]
  rfl

theorem feed_cons_of_ok {c : Char} {m n : Stack} (h : (m.step c).toExcept = .ok n)
    (cs : List Char) : (feed (c :: cs) m).toExcept = (feed cs n).toExcept := by
  rw [toExcept_feed_cons, h]
  rfl

theorem feed_cons_of_error {c : Char} {m : Stack} {e : ReadError}
    (h : (m.step c).toExcept = .error e) (cs : List Char) :
    (feed (c :: cs) m).toExcept = .error e := by
  rw [toExcept_feed_cons, h]
  rfl

/-- What one character keeps as the text grows, a whole text keeps. -/
theorem feed_keeps {P : List Char → Stack → Prop}
    (keep : ∀ heard m n c, P heard m → (m.step c).toExcept = .ok n → P (heard ++ [c]) n)
    {heard cs : List Char} {m n : Stack} (hm : P heard m) (h : (feed cs m).toExcept = .ok n) :
    P (heard ++ cs) n := by
  induction cs generalizing heard m with
  | nil => cases h; rwa [List.append_nil]
  | cons c cs ih =>
    rw [toExcept_feed_cons] at h
    obtain ⟨k, hs, h⟩ := bind_eq_ok_iff.1 h
    have next := ih (keep heard m k c hm hs) h
    rwa [List.append_assoc] at next

theorem feed_ok {cs : List Char} {m n : Stack} (hf : m.finished = false)
    (h : (feed cs m).toExcept = .ok n) :
    n.finished = false ∧ n.position = m.position + cs.length := by
  have start : m.finished = false ∧ m.position = m.position + ([] : List Char).length := ⟨hf, rfl⟩
  refine feed_keeps (P := fun heard k => k.finished = false ∧ k.position = m.position + heard.length)
    ?_ start h
  intro heard k n c ⟨hk, hp⟩ hs
  refine ⟨finished_of_step_ok hk hs, ?_⟩
  rw [position_of_step_ok hk hs, hp, List.length_append, List.length_singleton, Nat.add_assoc]

/-- **A text that fails** has a first character that fails. -/
theorem feed_error {cs : List Char} {m : Stack} {e : ReadError}
    (h : (feed cs m).toExcept = .error e) :
    ∃ pre c post n, cs = pre ++ c :: post ∧ (feed pre m).toExcept = .ok n ∧
      (n.step c).toExcept = .error e := by
  induction cs generalizing m with
  | nil => cases h
  | cons c cs ih =>
    rw [toExcept_feed_cons] at h
    rcases bind_eq_error_iff.1 h with hs | ⟨k, hs, h⟩
    · exact ⟨[], c, cs, m, rfl, rfl, hs⟩
    · obtain ⟨pre, d, post, n, rfl, hp, hd⟩ := ih h
      exact ⟨c :: pre, d, post, n, rfl, (feed_cons_of_ok hs pre).trans hp, hd⟩

/-! ## Whole texts -/

/-- What becomes of a text that is read to its end. -/
def readAll (cs : List Char) (m : Stack) : Except ReadError Stack :=
  ((feed cs m).andThen finish).toExcept

theorem readAll_eq (cs : List Char) (m : Stack) :
    readAll cs m = (feed cs m).toExcept.bind fun n => n.finish.toExcept := by
  rw [readAll, Outcome.toExcept_andThen]

theorem readAll_append_of_ok {cs : List Char} {m n : Stack} (h : (feed cs m).toExcept = .ok n)
    (ds : List Char) : readAll (cs ++ ds) m = readAll ds n := by
  rw [readAll_eq, feed_append_of_ok h, readAll_eq]

theorem readAll_append_of_error {cs : List Char} {m : Stack} {e : ReadError}
    (h : (feed cs m).toExcept = .error e) (ds : List Char) :
    readAll (cs ++ ds) m = .error e := by
  rw [readAll_eq, feed_append_of_error h]
  rfl

theorem readAll_cons (c : Char) (cs : List Char) (m : Stack) :
    readAll (c :: cs) m = (m.step c).toExcept.bind (readAll cs) := by
  rw [readAll_eq, toExcept_feed_cons]
  cases (m.step c).toExcept with
  | error e => rfl
  | ok n => exact (readAll_eq cs n).symm

theorem finish_unfinished {m : Stack} (hf : m.finished = false) :
    m.finish.toExcept =
      if 0 < m.below.length then .error (.unclosed m.below.length)
      else m.top.settle.toExcept.map fun f => { m with top := f, finished := true } := by
  by_cases hb : 0 < m.below.length
  · rw [finish_open hf hb, if_pos hb]
  · rw [if_neg hb, finish, if_neg (by simp [hf]), if_neg hb, Outcome.toExcept_map]

theorem finish_error {m : Stack} (hf : m.finished = false) {e : ReadError}
    (h : m.finish.toExcept = .error e) :
    (0 < m.below.length ∧ e = .unclosed m.below.length) ∨
      (m.below = [] ∧ m.top.settle.toExcept = .error e) := by
  rw [finish_unfinished hf] at h
  split at h
  · rename_i hb
    cases h
    exact .inl ⟨hb, rfl⟩
  · rename_i hb
    exact .inr ⟨List.length_eq_zero_iff.1 (Nat.eq_zero_of_not_pos hb), map_eq_error_iff.1 h⟩

/-- **A text that is read** closes all its groups, and its last numeral is settled. -/
theorem readAll_ok {cs : List Char} {m n : Stack} (hf : m.finished = false)
    (h : readAll cs m = .ok n) :
    ∃ f, (feed cs m).toExcept = .ok ⟨f, [], m.position + cs.length, false⟩ ∧
      f.settle.toExcept = .ok n.top ∧ n = ⟨n.top, [], m.position + cs.length, true⟩ := by
  rw [readAll_eq] at h
  obtain ⟨⟨top, below, p, finished⟩, hc, h⟩ := bind_eq_ok_iff.1 h
  obtain ⟨hk, hp⟩ := feed_ok hf hc
  cases hk
  cases hp
  rw [finish_unfinished rfl] at h
  split at h
  · cases h
  · rename_i hb
    cases List.length_eq_zero_iff.1 (Nat.eq_zero_of_not_pos hb)
    obtain ⟨g, hs, rfl⟩ := map_eq_ok_iff.1 h
    exact ⟨top, hc, hs, rfl⟩

/-- **A text that is not read** has a character that fails, or fails at its end. -/
theorem readAll_error {cs : List Char} {m : Stack} {e : ReadError} (h : readAll cs m = .error e) :
    (feed cs m).toExcept = .error e ∨
      ∃ n, (feed cs m).toExcept = .ok n ∧ n.finish.toExcept = .error e := by
  rw [readAll_eq] at h
  exact bind_eq_error_iff.1 h

end Stack

namespace Reader

/-- What a whole text means: its tree, if there is one, or why it cannot be read. -/
def meaning (text : String) : Except ReadError (Option Tree) := (read text).toExcept.map root

theorem readAll_toList (text : String) :
    Stack.readAll text.toList Stack.start = (read text).toExcept.map flatten := by
  rw [← Outcome.toExcept_map, ← flatten_read]
  rfl

theorem meaning_eq (text : String) :
    meaning text = (Stack.readAll text.toList Stack.start).map Stack.root := by
  rw [meaning, toExcept_read]
  rfl

end Reader

end Reckoner
