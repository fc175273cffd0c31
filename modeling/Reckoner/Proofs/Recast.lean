import Reckoner.Proofs.Steps
/-!
# Reading a text that is written differently

Reading does not depend on all that it reports. Positions and spans are only passed on, and of a
character of a numeral only the numeral matters that it is part of. So a text may be written with
other characters, or stand somewhere else: as long as its numerals denote what they denoted, and its
characters follow each other, it is read as before, and what is reported changes with the text.

Results:
* `Stack.step_recast`: one character that is written differently.
* `Stack.feed_recast`, `Stack.readAll_recast`: a text that is written differently.
-/
namespace Reckoner

/-- A way to write a text differently: what becomes of its characters, of the texts of its numerals,
and of where they stand. -/
structure Recast where
  char : Char → Char
  text : String → String
  position : Position → Position
  span : Span → Span

/-- A reader at `p` reads the recast text as the text. Whatever belongs to no numeral is written as
it is, numerals denote the same, and spans and the positions from `p` on still grow one by one. -/
structure Recast.Faithful (ρ : Recast) (p : Position) : Prop where
  accepts : ∀ c, Numeral.accepts (ρ.char c) = Numeral.accepts c
  same : ∀ {c}, Numeral.accepts c = false → ρ.char c = c
  push : ∀ t c, ρ.text (t.push c) = (ρ.text t).push (ρ.char c)
  text_eq_empty : ∀ t, ρ.text t = "" ↔ t = ""
  denotes : ∀ t, Decimal.ofChars? (ρ.text t).toList = Decimal.ofChars? t.toList
  single : ∀ q, ρ.span (.single q) = .single (ρ.position q)
  extendTo : ∀ s q, ρ.span (s.extendTo q) = (ρ.span s).extendTo (ρ.position q)
  succ : ∀ {q}, p ≤ q → ρ.position (q + 1) = ρ.position q + 1

namespace Recast.Faithful

variable {ρ : Recast} {p q : Position}

theorem later (h : ρ.Faithful p) (hq : p ≤ q) : ρ.Faithful q :=
  { h with succ := fun hr => h.succ (Nat.le_trans hq hr) }

theorem isBlank (h : ρ.Faithful p) (c : Char) : isBlank (ρ.char c) = isBlank c := by
  cases ha : Numeral.accepts c with
  | false => rw [h.same ha]
  | true =>
    rw [Numeral.isBlank_of_accepts ha, Numeral.isBlank_of_accepts ((h.accepts c).trans ha)]

/-- No other character becomes one that belongs to no numeral. -/
theorem char_eq_iff (h : ρ.Faithful p) {c d : Char} (hd : Numeral.accepts d = false) :
    ρ.char c = d ↔ c = d := by
  constructor
  · intro he
    have ha : Numeral.accepts c = false := by rw [← h.accepts, he, hd]
    rw [← he, h.same ha]
  · rintro rfl
    exact h.same hd

end Recast.Faithful

/-! ## What is recast -/

/-- The error in the recast text. A character that is not expected belongs to no numeral, so it is
written as it is. -/
def ReadError.recast (ρ : Recast) : ReadError → ReadError
  | unexpected c p => unexpected c (ρ.position p)
  | malformed text span => malformed (ρ.text text) (ρ.span span)
  | unclosed depth => unclosed depth
  | finished => finished

def Numeral.recast (ρ : Recast) (n : Numeral) : Numeral :=
  { n with text := ρ.text n.text, span? := n.span?.map ρ.span }

def Frame.recast (ρ : Recast) (f : Frame) : Frame := { f with numeral := f.numeral.recast ρ }

def Stack.recast (ρ : Recast) (m : Stack) : Stack :=
  ⟨m.top.recast ρ, m.below.map (Frame.recast ρ), ρ.position m.position, m.finished⟩

section
variable {σ τ : Type} {ρ : Recast} {g : σ → τ}

/-- A result in the recast text. -/
def recasted (ρ : Recast) (g : σ → τ) (x : Except ReadError σ) : Except ReadError τ :=
  (x.map g).mapError (ReadError.recast ρ)

@[simp] theorem recasted_ok (ρ : Recast) (g : σ → τ) (s : σ) :
    recasted ρ g (.ok s) = .ok (g s) := rfl

@[simp] theorem recasted_error (ρ : Recast) (g : σ → τ) (e : ReadError) :
    recasted ρ g (.error e) = .error (e.recast ρ) := rfl

theorem recasted_eq_ok_iff {x : Except ReadError σ} {t : τ} :
    recasted ρ g x = .ok t ↔ ∃ s, x = .ok s ∧ g s = t := by
  cases x <;> simp

theorem recasted_bind {x : Except ReadError σ} {next : σ → Except ReadError σ}
    {next' : τ → Except ReadError τ}
    (h : ∀ s, x = .ok s → next' (g s) = recasted ρ g (next s)) :
    (recasted ρ g x).bind next' = recasted ρ g (x.bind next) := by
  cases x with
  | error e => rfl
  | ok s => exact h s rfl

end

/-! ## Frames -/

section
variable {ρ : Recast} {p : Position}

namespace Numeral

theorem recast_empty (h : ρ.Faithful p) : empty.recast ρ = empty := by
  have text : ρ.text "" = "" := (h.text_eq_empty "").2 rfl
  rw [recast, empty, text]
  rfl

theorem recast_push (h : ρ.Faithful p) (n : Numeral) (c : Char) (q : Position) :
    (n.push c q).recast ρ = (n.recast ρ).push (ρ.char c) (ρ.position q) := by
  obtain ⟨text, span?, negative⟩ := n
  cases span? with
  | none => simp only [recast, push, h.push, h.single, Option.map_some, Option.map_none]
  | some span => simp only [recast, push, h.push, h.extendTo, Option.map_some]

theorem value?_recast (h : ρ.Faithful p) (n : Numeral) : (n.recast ρ).value? = n.value? := by
  rw [value?, value?, recast, h.denotes]

end Numeral

namespace Frame

theorem recast_empty (h : ρ.Faithful p) : empty.recast ρ = empty := by
  rw [recast, empty, Numeral.recast_empty h]

theorem place_recast (ρ : Recast) (t : Tree) (f : Frame) :
    ((f.recast ρ).place t).state = (f.place t).state.recast ρ := by
  obtain ⟨numeral, root⟩ := f
  rcases root with _ | ⟨x⟩ | ⟨op, l⟩ | ⟨op, l, r⟩ <;> rfl

theorem malformed_recast (ρ : Recast) {f : Frame} (hl : f.numeral.Located)
    (ht : f.numeral.text ≠ "") : (f.recast ρ).malformed = f.malformed.recast ρ := by
  obtain ⟨span, hs⟩ := Option.isSome_iff_exists.1 (hl.2 ht)
  simp only [malformed, ReadError.recast, recast, Numeral.recast, hs, Option.map_some,
    Option.getD_some]

theorem settle_recast (h : ρ.Faithful p) {f : Frame} (hl : f.numeral.Located) :
    (f.recast ρ).settle.toExcept = recasted ρ (recast ρ) f.settle.toExcept := by
  have text : (f.recast ρ).numeral.text = "" ↔ f.numeral.text = "" := h.text_eq_empty _
  have value : (f.recast ρ).numeral.value? = f.numeral.value? := Numeral.value?_recast h _
  rcases f.settle_cases with ⟨ht, hs⟩ | ⟨ht, x, hv, hs⟩ | ⟨ht, hv, hs⟩
  · rw [hs, settle_of_text_eq (text.2 ht)]
    rfl
  · have placed := place_recast ρ (.number x) { f with numeral := .empty }
    rw [recast, Numeral.recast_empty h] at placed
    rw [hs, settle_of_value (mt text.1 ht) (value.trans hv), toExcept_place, toExcept_place,
      recasted_ok]
    exact congrArg Except.ok placed
  · rw [hs, settle_of_malformed (mt text.1 ht) (value.trans hv), malformed_recast ρ hl ht]
    rfl

theorem readOperator_recast (h : ρ.Faithful p) {f : Frame} (hl : f.numeral.Located) (c : Char)
    (q : Position) :
    ((f.recast ρ).readOperator c (ρ.position q)).toExcept =
      recasted ρ (recast ρ) (f.readOperator c q).toExcept := by
  rw [readOperator, readOperator, Outcome.toExcept_andThen, Outcome.toExcept_andThen,
    settle_recast h hl]
  refine recasted_bind ?_
  intro g _
  have same : (g.recast ρ).complete? = g.complete? := rfl
  rw [same]
  cases g.complete? with
  | some t => cases Op.ofChar? c <;> rfl
  | none => by_cases hc : c = '-' <;> simp only [hc, if_true, if_false] <;> rfl

/-- **A frame reads** a character that is written differently as the character. -/
theorem readChar_recast (h : ρ.Faithful p) {f : Frame} (hl : f.numeral.Located) (c : Char)
    (q : Position) :
    ((f.recast ρ).readChar (ρ.char c) (ρ.position q)).toExcept =
      recasted ρ (recast ρ) (f.readChar c q).toExcept := by
  unfold readChar
  rw [h.isBlank, h.accepts]
  split
  · rfl
  · split
    · simp only [Outcome.toExcept_done, recasted_ok, recast, Numeral.recast_push h]
    · rw [h.same (Bool.eq_false_iff.2 ‹_›)]
      exact readOperator_recast h hl c q

end Frame

end

/-! ## Stacks -/

namespace Stack

/-- All numerals have spans exactly while they have characters. -/
def Located (m : Stack) : Prop := ∀ f ∈ m.top :: m.below, f.numeral.Located

theorem located_start : start.Located := by
  intro f hf
  rw [List.mem_singleton.1 hf]
  exact Numeral.located_empty

theorem located_step {m n : Stack} (h : m.Located) (hf : m.finished = false) {c : Char}
    (hs : (m.step c).toExcept = .ok n) : n.Located := by
  have top := h m.top List.mem_cons_self
  have below : ∀ f ∈ m.below, f.numeral.Located := fun f hm => h f (List.mem_cons_of_mem _ hm)
  rcases step_ok hf hs with ⟨-, rfl⟩ | ⟨-, f, fs, g, hb, -, rfl⟩ | ⟨-, -, g, hr, rfl⟩
  · intro k hk
    rcases List.mem_cons.1 hk with rfl | hk
    · exact Numeral.located_empty
    · exact h k hk
  · rw [hb] at below
    intro k hk
    rcases List.mem_cons.1 hk with rfl | hk
    · rw [Frame.numeral_around]
      exact below f List.mem_cons_self
    · exact below k (List.mem_cons_of_mem _ hk)
  · obtain ⟨-, rfl⟩ := Outcome.toExcept_eq_ok_iff.1 hr
    intro k hk
    rcases List.mem_cons.1 hk with rfl | hk
    · exact Frame.located_readChar top c m.position
    · exact below k hk

theorem located_feed {cs : List Char} {m n : Stack} (h : m.Located) (hf : m.finished = false)
    (hs : (feed cs m).toExcept = .ok n) : n.Located := by
  have keep := @feed_keeps (fun _ k => k.finished = false ∧ k.Located)
    (fun _ _ _ _ ⟨hk, hl⟩ ht => ⟨finished_of_step_ok hk ht, located_step hl hk ht⟩) [] cs m n
    ⟨hf, h⟩ hs
  exact keep.2

section
variable {ρ : Recast} {m : Stack}

theorem readOwn_recast (h : m.Located) (hρ : ρ.Faithful m.position) (c : Char) :
    ((m.recast ρ).readOwn (ρ.char c)).toExcept =
      recasted ρ (recast ρ) (m.readOwn c).toExcept := by
  have read := Frame.readChar_recast hρ (h m.top List.mem_cons_self) c m.position
  have next : ρ.position (m.position + 1) = ρ.position m.position + 1 := hρ.succ (Nat.le_refl _)
  rw [readOwn, readOwn, Outcome.toExcept_map, Outcome.toExcept_map]
  simp only [recast, read]
  cases (m.top.readChar c m.position).toExcept with
  | error e => rfl
  | ok g => simp only [Except.map, recasted_ok, recast, next]

theorem close_recast (h : m.Located) (hρ : ρ.Faithful m.position) (f : Frame) (fs : List Frame) :
    ((m.recast ρ).close (f.recast ρ) (fs.map (Frame.recast ρ))).toExcept =
      recasted ρ (recast ρ) (m.close f fs).toExcept := by
  have settled := Frame.settle_recast hρ (h m.top List.mem_cons_self)
  have next : ρ.position (m.position + 1) = ρ.position m.position + 1 := hρ.succ (Nat.le_refl _)
  rw [toExcept_close, toExcept_close]
  simp only [recast, settled]
  cases m.top.settle.toExcept with
  | error e => rfl
  | ok g =>
    have root : (g.recast ρ).root = g.root := rfl
    simp only [recasted_ok, Except.map, root, recast, next]
    cases g.root with
    | none => rfl
    | some t => simp only [Option.elim_some, Frame.place_recast]

/-- **One character** that is written differently. -/
theorem step_recast (h : m.Located) (hf : m.finished = false) (hρ : ρ.Faithful m.position)
    (c : Char) :
    ((m.recast ρ).step (ρ.char c)).toExcept = recasted ρ (recast ρ) (m.step c).toExcept := by
  have hf' : (m.recast ρ).finished = false := hf
  have next : ρ.position (m.position + 1) = ρ.position m.position + 1 := hρ.succ (Nat.le_refl _)
  rcases step_cases hf c with ⟨rfl, hs⟩ | ⟨rfl, f, fs, hb, hs⟩ | ⟨ho, hc, hs⟩
  · rw [hρ.same (by decide), hs, step_open hf', hf']
    simp only [Outcome.toExcept, recasted_ok, recast, Frame.recast_empty hρ, next, List.map_cons]
  · have hb' : (m.recast ρ).below = f.recast ρ :: fs.map (Frame.recast ρ) := by
      rw [recast, hb, List.map_cons]
    rw [hρ.same (by decide), hs, step_close hf' hb', close_recast h hρ]
  · have ho' : ρ.char c ≠ '(' := mt (hρ.char_eq_iff (by decide)).1 ho
    have hc' : ρ.char c = ')' → (m.recast ρ).below = [] := by
      intro he
      rw [recast, hc ((hρ.char_eq_iff (by decide)).1 he), List.map_nil]
    rw [hs, step_own hf' ho' hc', readOwn_recast h hρ]

/-- **A text** that is written differently. -/
theorem feed_recast (h : m.Located) (hf : m.finished = false) (hρ : ρ.Faithful m.position)
    (cs : List Char) :
    (feed (cs.map ρ.char) (m.recast ρ)).toExcept = recasted ρ (recast ρ) (feed cs m).toExcept := by
  induction cs generalizing m with
  | nil => rfl
  | cons c cs ih =>
    rw [List.map_cons, toExcept_feed_cons, toExcept_feed_cons, step_recast h hf hρ]
    refine recasted_bind ?_
    intro n hn
    have later : m.position ≤ n.position := by
      rw [position_of_step_ok hf hn]; exact Nat.le_succ _
    exact ih (located_step h hf hn) (finished_of_step_ok hf hn) (hρ.later later)

theorem finish_recast (h : m.Located) (hf : m.finished = false) (hρ : ρ.Faithful m.position) :
    (m.recast ρ).finish.toExcept = recasted ρ (recast ρ) m.finish.toExcept := by
  have settled := Frame.settle_recast hρ (h m.top List.mem_cons_self)
  have hf' : (m.recast ρ).finished = false := hf
  have top : (m.recast ρ).top = m.top.recast ρ := rfl
  have length : (m.recast ρ).below.length = m.below.length := List.length_map _
  rw [finish_unfinished hf, finish_unfinished hf', length, top, settled]
  split
  · rfl
  · cases m.top.settle.toExcept <;> rfl

/-- **A whole text** that is written differently. -/
theorem readAll_recast (h : m.Located) (hf : m.finished = false) (hρ : ρ.Faithful m.position)
    (cs : List Char) :
    readAll (cs.map ρ.char) (m.recast ρ) = recasted ρ (recast ρ) (readAll cs m) := by
  rw [readAll_eq, readAll_eq, feed_recast h hf hρ]
  refine recasted_bind ?_
  intro n hn
  obtain ⟨unfinished, position⟩ := feed_ok hf hn
  have later : m.position ≤ n.position := by rw [position]; exact Nat.le_add_right _ _
  exact finish_recast (located_feed h hf hn) unfinished (hρ.later later)

/-- The tree stays what it is. -/
theorem root_recast (ρ : Recast) (m : Stack) : (m.recast ρ).root = m.root := by
  obtain ⟨top, below, p, finished⟩ := m
  simp only [root, recast, List.getLastD_eq_getLast?, List.getLast?_map]
  cases below.getLast? <;> rfl

theorem map_root_recasted (ρ : Recast) (x : Except ReadError Stack) :
    (recasted ρ (recast ρ) x).map root = (x.map root).mapError (ReadError.recast ρ) := by
  cases x with
  | error e => rfl
  | ok m => exact congrArg Except.ok (m.root_recast ρ)

end

end Stack

end Reckoner
