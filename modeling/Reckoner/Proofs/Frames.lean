import Reckoner.Reader.Frame
/-!
# Frames, one function at a time

All that each function on frames can do, whether or not it fails, and what it leaves of the parts
that it does not mean to change. A numeral is *located* if it has a span exactly while it has
characters.

Results:
* `settle_cases`, `readOperator_cases`, `readChar_cases`: all outcomes of a step of a frame.
* `located_settle`, `located_readChar`: whatever a frame reads, its numeral stays located.
* `take_of_located`: a malformed numeral is reported with the span of its own characters.
-/
namespace Reckoner

/-! ## Outcomes -/

namespace Outcome

variable {σ τ : Type}

/-- What an outcome tells the caller: the events, and the error if there is one. -/
def report (o : Outcome σ) : List Event × Option ReadError := (o.events, o.error?)

@[simp] theorem report_map (g : σ → τ) (o : Outcome σ) : (o.map g).report = o.report := rfl

@[simp] theorem toExcept_done (s : σ) : (done s).toExcept = .ok s := rfl

@[simp] theorem toExcept_failed (s : σ) (e : ReadError) : (failed s e).toExcept = .error e := rfl

@[simp] theorem toExcept_map (g : σ → τ) (o : Outcome σ) :
    (o.map g).toExcept = o.toExcept.map g := by
  obtain ⟨s, events, _ | e⟩ := o <;> rfl

@[simp] theorem toExcept_andThen (o : Outcome σ) (next : σ → Outcome σ) :
    (o.andThen next).toExcept = o.toExcept.bind fun s => (next s).toExcept := by
  obtain ⟨s, events, _ | e⟩ := o
  · simp only [andThen, toExcept]
    cases h : (next s).error? <;> simp [Except.bind, h]
  · rfl

theorem map_andThen {g : σ → τ} {o : Outcome σ} {next : σ → Outcome σ} {next' : τ → Outcome τ}
    (h : next' (g o.state) = (next o.state).map g) :
    (o.map g).andThen next' = (o.andThen next).map g := by
  obtain ⟨s, events, _ | e⟩ := o
  · simp only [andThen, map] at h ⊢
    rw [h]
  · rfl

theorem andThen_of_ok {o : Outcome σ} (h : o.error? = none) (next : σ → Outcome σ) :
    o.andThen next = { next o.state with events := o.events ++ (next o.state).events } := by
  rw [andThen, h]

/-- Two steps succeed together only if each succeeds. -/
theorem andThen_eq_none_iff {o : Outcome σ} {next : σ → Outcome σ} :
    (o.andThen next).error? = none ↔ o.error? = none ∧ (next o.state).error? = none := by
  obtain ⟨s, events, _ | e⟩ := o <;> simp [andThen]

/-- What holds after a step and is kept by the next holds after both, also if the first fails. -/
theorem andThen_keeps {P : σ → Prop} {o : Outcome σ} {next : σ → Outcome σ} (h : P o.state)
    (hn : ∀ s, P s → P (next s).state) : P (o.andThen next).state := by
  obtain ⟨s, events, _ | e⟩ := o
  · exact hn s h
  · exact h

end Outcome

/-! ## Numerals -/

namespace Numeral

/-- No character of a numeral is blank. -/
theorem isBlank_of_accepts {c : Char} (h : accepts c = true) : isBlank c = false := by
  have range : 44 ≤ c.toNat ∧ c.toNat ≤ 57 := by
    simp only [accepts, Decimal.isSeparator, Char.isDigit, Bool.or_eq_true, Bool.and_eq_true,
      decide_eq_true_eq, beq_iff_eq, UInt32.le_iff_toNat_le] at h
    rcases h with ⟨h1, h2⟩ | rfl | rfl
    · exact ⟨Nat.le_trans (by decide) h1, h2⟩
    · decide
    · decide
  simp only [isBlank, blankRuns, List.any_cons, List.any_nil]
  simp
  omega

/-- A span exactly while there are characters. -/
def Located (n : Numeral) : Prop := n.span?.isSome = true ↔ n.text ≠ ""

theorem located_empty : empty.Located := by simp [Located, empty]

theorem located_push (n : Numeral) (c : Char) (p : Position) : (n.push c p).Located := by
  simp [Located, push]

theorem located_markNegative {n : Numeral} (h : n.Located) : n.markNegative.Located := h

theorem located_take {n : Numeral} (h : n.Located) : n.take.1.Located := by
  by_cases ht : n.text = ""
  · rw [take_empty ht]; exact h
  · rw [take_of_text_ne ht]; exact located_empty

/-- With characters there is a span, so none has to be made up for the error. -/
theorem take_of_located {n : Numeral} (h : n.Located) (ht : n.text ≠ "") :
    ∃ span, n.span? = some span ∧
      n.take = (empty, match n.value? with
        | some x => .ok (some x)
        | none => .error (.malformed n.text span)) := by
  obtain ⟨span, hs⟩ := Option.isSome_iff_exists.1 (h.2 ht)
  refine ⟨span, hs, ?_⟩
  rw [take, if_neg ht, hs]
  rfl

end Numeral

/-! ## Frames -/

namespace Frame

@[simp] theorem place_error? (t : Tree) (f : Frame) : (f.place t).error? = none := by
  unfold place
  split
  · rfl
  · split <;> rfl

theorem toExcept_place (t : Tree) (f : Frame) : (f.place t).toExcept = .ok (f.place t).state := by
  rw [Outcome.toExcept, place_error?]

@[simp] theorem place_numeral (t : Tree) (f : Frame) : (f.place t).state.numeral = f.numeral := by
  unfold place
  split
  · rfl
  · split <;> rfl

/-- A group that ends leaves the numeral of the frame around it alone. -/
theorem numeral_around (group : Option Tree) (f : Frame) :
    (group.elim f fun t => (f.place t).state).numeral = f.numeral := by
  cases group with
  | none => rfl
  | some t => exact place_numeral t f

/-- Without characters there is nothing to settle. -/
theorem settle_of_text_eq {f : Frame} (h : f.numeral.text = "") : f.settle = .done f := by
  unfold settle
  rw [Numeral.take_empty h]

theorem settle_of_value {f : Frame} {x : Float} (ht : f.numeral.text ≠ "")
    (hv : f.numeral.value? = some x) :
    f.settle = place (.number x) { f with numeral := .empty } := by
  unfold settle
  rw [Numeral.take, if_neg ht, hv]

/-- The error of a numeral that is none. -/
def malformed (f : Frame) : ReadError :=
  .malformed f.numeral.text (f.numeral.span?.getD (Span.single 0))

theorem settle_of_malformed {f : Frame} (ht : f.numeral.text ≠ "")
    (hv : f.numeral.value? = none) : f.settle = .failed { f with numeral := .empty } f.malformed := by
  unfold settle
  rw [Numeral.take, if_neg ht, hv]
  rfl

/-- **Settling a frame** does nothing without characters, places the number that they are, or drops
them if they are none. -/
theorem settle_cases (f : Frame) :
    (f.numeral.text = "" ∧ f.settle = .done f) ∨
      (f.numeral.text ≠ "" ∧ ∃ x, f.numeral.value? = some x ∧
        f.settle = place (.number x) { f with numeral := .empty }) ∨
      (f.numeral.text ≠ "" ∧ f.numeral.value? = none ∧
        f.settle = .failed { f with numeral := .empty } f.malformed) := by
  by_cases ht : f.numeral.text = ""
  · exact .inl ⟨ht, settle_of_text_eq ht⟩
  · cases hv : f.numeral.value? with
    | some x => exact .inr (.inl ⟨ht, x, rfl, settle_of_value ht hv⟩)
    | none => exact .inr (.inr ⟨ht, rfl, settle_of_malformed ht hv⟩)

/-- **An operator** settles the numeral before it. If that fails, it is not looked at; otherwise it
takes a complete tree, or is a sign, or is refused, and then nothing else has changed. -/
theorem readOperator_cases (f : Frame) (c : Char) (p : Position) :
    (f.settle.error?.isSome = true ∧ f.readOperator c p = f.settle) ∨
      (f.settle.error? = none ∧
        ((∃ op t, c = Op.symbol op ∧ f.settle.state.complete? = some t ∧
          f.readOperator c p =
            ⟨{ f.settle.state with root := some (.pending op t) }, f.settle.events, none⟩) ∨
        (c = '-' ∧ f.settle.state.complete? = none ∧
          f.readOperator c p =
            ⟨{ f.settle.state with numeral := f.settle.state.numeral.markNegative },
              f.settle.events, none⟩) ∨
        f.readOperator c p = ⟨f.settle.state, f.settle.events, some (.unexpected c p)⟩)) := by
  unfold readOperator
  rcases f.settle with ⟨g, events, _ | e⟩
  · right
    refine ⟨rfl, ?_⟩
    rw [Outcome.andThen_of_ok rfl]
    cases hr : g.complete? with
    | some t =>
      cases ho : Op.ofChar? c with
      | some op =>
        refine .inl ⟨op, t, Op.ofChar?_eq_some_iff.1 ho, rfl, ?_⟩
        simp [Outcome.done]
      | none =>
        refine .inr (.inr ?_)
        simp [Outcome.failed]
    | none =>
      by_cases hc : c = '-'
      · refine .inr (.inl ⟨hc, rfl, ?_⟩)
        simp [hc, Outcome.done]
      · refine .inr (.inr ?_)
        simp [hc, Outcome.failed]
  · exact .inl ⟨rfl, rfl⟩

/-- **A frame** reads blanks, characters of numerals, and operators. -/
theorem readChar_cases (f : Frame) (c : Char) (p : Position) :
    (isBlank c = true ∧ f.readChar c p = .done f) ∨
      (Numeral.accepts c = true ∧
        f.readChar c p = .done { f with numeral := f.numeral.push c p }) ∨
      (isBlank c = false ∧ Numeral.accepts c = false ∧ f.readChar c p = f.readOperator c p) := by
  unfold readChar
  split
  · exact .inl ⟨‹_›, rfl⟩
  · split
    · exact .inr (.inl ⟨‹_›, rfl⟩)
    · exact .inr (.inr ⟨Bool.eq_false_iff.2 ‹_›, Bool.eq_false_iff.2 ‹_›, rfl⟩)

theorem settle_numeral (f : Frame) : f.settle.state.numeral = f.numeral.take.1 := by
  unfold settle
  split <;> rename_i h <;> simp [h, Outcome.done, Outcome.failed]

theorem located_settle {f : Frame} (h : f.numeral.Located) : f.settle.state.numeral.Located := by
  rw [settle_numeral]; exact Numeral.located_take h

theorem located_readOperator {f : Frame} (h : f.numeral.Located) (c : Char) (p : Position) :
    (f.readOperator c p).state.numeral.Located := by
  have settled := located_settle h
  rcases f.readOperator_cases c p with ⟨-, ho⟩ | ⟨-, ⟨op, t, -, -, ho⟩ | ⟨-, -, ho⟩ | ho⟩
  · rw [ho]; exact settled
  · rw [ho]; exact settled
  · rw [ho]; exact Numeral.located_markNegative settled
  · rw [ho]; exact settled

theorem located_readChar {f : Frame} (h : f.numeral.Located) (c : Char) (p : Position) :
    (f.readChar c p).state.numeral.Located := by
  rcases f.readChar_cases c p with ⟨-, hr⟩ | ⟨-, hr⟩ | ⟨-, -, hr⟩
  · rw [hr]; exact h
  · rw [hr]; exact Numeral.located_push _ _ _
  · rw [hr]; exact located_readOperator h c p

end Frame

end Reckoner
