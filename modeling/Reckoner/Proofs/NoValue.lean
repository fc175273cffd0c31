import Reckoner.Calculate
import Reckoner.Proofs.LeftToRight
import Mathlib.Data.List.Basic
/-!
# Texts without a value

A text can be read and still have no value: then no operand was read anywhere. A frame has an
operand from the first character of a numeral on; the end of a group hands it to the frame around,
and nothing takes it away. Where there is none in any frame, every operator is refused but the minus
sign.

Results:
* `Stack.holds_step`: one character that is read brings an operand, unless it is silent.
* `Stack.readAll_silent`: silent characters are read if the parentheses match.
* `calculate_eq_none_iff`: which texts have no value.
-/
namespace Reckoner

/-- Characters that bring no operand: blanks, the sign of a number that may never come, and
parentheses. -/
def Silent (c : Char) : Prop := isBlank c = true ∨ c = '-' ∨ c = '(' ∨ c = ')'

theorem not_silent_of_accepts {c : Char} (h : Numeral.accepts c = true) : ¬ Silent c := by
  rintro (hb | rfl | rfl | rfl)
  · rw [Numeral.isBlank_of_accepts h] at hb; cases hb
  · revert h; decide
  · revert h; decide
  · revert h; decide

/-! ## Frames -/

namespace Frame

/-- An operand was read: it is in the tree, or its numeral is pending. -/
def HasOperand (f : Frame) : Prop := f.numeral.text ≠ "" ∨ f.root ≠ none

theorem not_hasOperand_empty : ¬ empty.HasOperand := by
  rintro (h | h) <;> exact h rfl

theorem root_place (t : Tree) (f : Frame) : (f.place t).state.root ≠ none := by
  rw [place_state]
  rcases f.root with _ | ⟨x⟩ | ⟨op, l⟩ | ⟨op, l, r⟩ <;> exact Option.some_ne_none _

theorem root_of_complete? {f : Frame} {t : Tree} (h : f.complete? = some t) : f.root ≠ none := by
  rw [(Option.filter_eq_some_iff.1 h).1]
  exact Option.some_ne_none t

/-- Settling a frame turns its operand into a tree. -/
theorem root_of_settle {f g : Frame} (h : f.settle.toExcept = .ok g) :
    g.root ≠ none ↔ f.HasOperand := by
  rcases f.settle_cases with ⟨ht, hs⟩ | ⟨ht, x, -, hs⟩ | ⟨-, -, hs⟩
  · rw [hs] at h
    cases h
    exact ⟨.inr, fun h => h.resolve_left (not_not_intro ht)⟩
  · rw [hs] at h
    obtain ⟨-, rfl⟩ := Outcome.toExcept_eq_ok_iff.1 h
    exact ⟨fun _ => .inl ht, fun _ => root_place _ _⟩
  · rw [hs] at h
    cases h

/-- A settled frame has no other operand than its tree. -/
theorem hasOperand_of_settle {f g : Frame} (h : f.settle.toExcept = .ok g) :
    g.HasOperand ↔ f.HasOperand := by
  rw [← root_of_settle h, HasOperand, (settle_ok h).1]
  simp

/-- An operator that is read stands behind an operand, or is the sign of a number. -/
theorem hasOperand_readOperator {f g : Frame} {c : Char} {p : Position}
    (h : (f.readOperator c p).toExcept = .ok g) :
    g.HasOperand ↔ f.HasOperand ∨ ¬ Silent c := by
  rcases f.readOperator_cases c p with ⟨hs, ho⟩ | ⟨hs, hc⟩
  · rw [ho, Outcome.toExcept_eq_ok_iff] at h
    rw [h.1] at hs
    cases hs
  · have settled : f.settle.toExcept = .ok f.settle.state :=
      Outcome.toExcept_eq_ok_iff.2 ⟨hs, rfl⟩
    rcases hc with ⟨op, t, -, ht, ho⟩ | ⟨rfl, -, ho⟩ | ho
    · rw [ho] at h
      cases h
      have before : f.HasOperand := (root_of_settle settled).1 (root_of_complete? ht)
      exact ⟨fun _ => .inl before, fun _ => .inr (Option.some_ne_none _)⟩
    · rw [ho] at h
      cases h
      have sign : Silent '-' := .inr (.inl rfl)
      rw [← hasOperand_of_settle settled]
      exact ⟨.inl, fun h => h.resolve_right (not_not_intro sign)⟩
    · rw [ho] at h
      cases h

/-- **A frame** gets an operand from any character that it reads and that is not silent. -/
theorem hasOperand_readChar {f g : Frame} {c : Char} {p : Position}
    (h : (f.readChar c p).toExcept = .ok g) :
    g.HasOperand ↔ f.HasOperand ∨ ¬ Silent c := by
  rcases f.readChar_cases c p with ⟨hb, hr⟩ | ⟨ha, hr⟩ | ⟨-, -, hr⟩
  · rw [hr] at h
    cases h
    exact ⟨.inl, fun h => h.resolve_right (not_not_intro (.inl hb))⟩
  · rw [hr] at h
    cases h
    have pushed : (f.numeral.push c p).text ≠ "" := by simp [Numeral.push]
    exact ⟨fun _ => .inr (not_silent_of_accepts ha), fun _ => .inl pushed⟩
  · rw [hr] at h
    exact hasOperand_readOperator h

/-- Without an operand, only a parenthesis that closes nothing can be refused among the silent
characters. -/
theorem readChar_silent {f : Frame} (hf : ¬ f.HasOperand) {c : Char} {p : Position} {e : ReadError}
    (hc : Silent c) (ho : c ≠ '(') (h : (f.readChar c p).toExcept = .error e) : c = ')' := by
  have text : f.numeral.text = "" := by_contra fun ht => hf (.inl ht)
  have root : f.root = none := by_contra fun hr => hf (.inr hr)
  rcases hc with hb | rfl | rfl | rfl
  · rw [(readChar_error h).1] at hb
    cases hb
  · have awaits : f.complete? = none := by rw [complete?, root]; rfl
    rw [show '-' = Op.symbol .sub from rfl, readChar_symbol, readOperator_awaiting text awaits] at h
    cases h
  · exact absurd rfl ho
  · rfl

end Frame

/-! ## Stacks -/

namespace Stack

/-- One of the frames has an operand. -/
def Holds (m : Stack) : Prop := ∃ f ∈ m.top :: m.below, f.HasOperand

theorem holds_cons_iff {f : Frame} {fs : List Frame} {p : Position} {b : Bool} :
    Holds ⟨f, fs, p, b⟩ ↔ f.HasOperand ∨ ∃ g ∈ fs, g.HasOperand := by
  simp only [Holds, List.mem_cons, exists_eq_or_imp]

theorem not_holds_start : ¬ start.Holds := by
  rintro ⟨f, hf, h⟩
  rw [List.mem_singleton.1 hf] at h
  exact Frame.not_hasOperand_empty h

/-- What a group holds is handed to the frame around it. -/
theorem hasOperand_close {top f g : Frame} (hs : top.settle.toExcept = .ok g) :
    (g.root.elim f fun t => (f.place t).state).HasOperand ↔ top.HasOperand ∨ f.HasOperand := by
  rw [← Frame.root_of_settle hs]
  cases g.root with
  | none => simp
  | some t => simp [Frame.HasOperand, Frame.root_place]

/-- **One character that is read** brings an operand, unless it is silent, and none is lost. -/
theorem holds_step {m n : Stack} (hf : m.finished = false) {c : Char}
    (h : (m.step c).toExcept = .ok n) : n.Holds ↔ m.Holds ∨ ¬ Silent c := by
  have before : m.Holds ↔ m.top.HasOperand ∨ ∃ f ∈ m.below, f.HasOperand := holds_cons_iff
  rcases step_ok hf h with ⟨rfl, rfl⟩ | ⟨rfl, f, fs, g, hb, hs, rfl⟩ | ⟨-, -, g, hr, rfl⟩
  · have opens : Silent '(' := .inr (.inr (.inl rfl))
    rw [holds_cons_iff, before]
    simp [opens, Frame.not_hasOperand_empty]
  · have closes : Silent ')' := .inr (.inr (.inr rfl))
    rw [holds_cons_iff, hasOperand_close hs, before, hb, or_assoc]
    simp [closes]
  · rw [holds_cons_iff, Frame.hasOperand_readChar hr, before, or_right_comm]

/-- **A text** leaves an operand in some frame if one of its characters is not silent. -/
theorem holds_feed {cs : List Char} {n : Stack} (h : (feed cs start).toExcept = .ok n) :
    n.Holds ↔ ∃ c ∈ cs, ¬ Silent c := by
  have start : start.finished = false ∧ (start.Holds ↔ ∃ c ∈ ([] : List Char), ¬ Silent c) :=
    ⟨rfl, by simp [not_holds_start]⟩
  refine (feed_keeps
    (P := fun heard m => m.finished = false ∧ (m.Holds ↔ ∃ c ∈ heard, ¬ Silent c)) ?_ start h).2
  intro heard m n c ⟨hf, hm⟩ hs
  refine ⟨finished_of_step_ok hf hs, ?_⟩
  rw [holds_step hf hs, hm]
  simp only [List.mem_append, List.mem_singleton, or_and_right, exists_or, exists_eq_left]

/-- A text that is read has no tree exactly if all of its characters are silent. -/
theorem root_of_readAll {cs : List Char} {n : Stack} (h : readAll cs start = .ok n) :
    n.root = none ↔ ∀ c ∈ cs, Silent c := by
  obtain ⟨f, hc, hs, hn⟩ := readAll_ok rfl h
  have root : n.root = n.top.root := by rw [hn]; rfl
  have holds := holds_feed hc
  rw [holds_cons_iff, ← Frame.root_of_settle hs, ← root] at holds
  simp only [List.not_mem_nil, false_and, exists_false, or_false] at holds
  rw [← not_iff_not, ← Ne, holds]
  simp

/-- The parentheses of a text that is read match. -/
theorem matched_of_readAll {cs : List Char} {n : Stack} (h : readAll cs start = .ok n) :
    Matched cs := by
  obtain ⟨f, hc, -, -⟩ := readAll_ok rfl h
  exact ⟨(hasRead_feed hc).never_below, (hasRead_feed hc).depth⟩

/-- **Silent characters** are read if their parentheses match. -/
theorem readAll_silent {cs : List Char} (hm : Matched cs) (hs : ∀ c ∈ cs, Silent c) {e : ReadError} :
    readAll cs start ≠ .error e := by
  -- As long as no frame holds an operand, there is nothing to settle.
  have settles {pre : List Char} {n : Stack} (hp : (feed pre start).toExcept = .ok n)
      (silent : ∀ c ∈ pre, Silent c) : ¬ n.top.HasOperand ∧ n.top.settle.toExcept ≠ .error e := by
    have empty : ¬ n.top.HasOperand := by
      intro h
      obtain ⟨c, hc, hn⟩ := (holds_feed hp).1 ⟨n.top, List.mem_cons_self, h⟩
      exact hn (silent c hc)
    exact ⟨empty, fun h => empty (.inl (Frame.settle_error h).1)⟩
  intro h
  rcases readAll_error h with hf | ⟨n, hn, hf⟩
  · obtain ⟨pre, c, post, n, rfl, hp, hc⟩ := feed_error hf
    have read := hasRead_feed hp
    obtain ⟨empty, settled⟩ := settles hp fun d hd => hs d (List.mem_append_left _ hd)
    rcases step_error read.unfinished hc with ⟨-, -, he⟩ | ⟨ho, hb, hr⟩
    · exact settled he
    · -- What is refused closes nothing, so the parentheses do not match.
      obtain rfl := Frame.readChar_silent empty (hs c (by simp)) ho hr
      have depth := read.depth
      rw [hb rfl, List.length_nil] at depth
      have closed := hm.1 (pre.length + 1)
      rw [List.take_append, List.take_of_length_le (by omega), Nat.add_sub_cancel_left,
        List.take_succ_cons, List.take_zero, nesting_close] at closed
      omega
  · have read := hasRead_feed hn
    rcases finish_error read.unfinished hf with ⟨pos, -⟩ | ⟨-, he⟩
    · have depth := read.depth
      rw [hm.2] at depth
      omega
    · exact (settles hn hs).2 he

end Stack

/-! ## Values -/

theorem calculate_eq_none {s : String} :
    calculate s = .ok none ↔ ∃ r, (Reader.read s).toExcept = .ok r ∧ r.root = none := by
  unfold calculate
  cases (Reader.read s).toExcept with
  | error e => simp
  | ok r =>
    simp only [Except.ok.injEq, exists_eq_left', Reader.value]
    cases r.root with
    | none => simp [Except.mapError]
    | some t =>
      have valued : (t.evaluate.map some).mapError CalcError.evaluate ≠ .ok none := by
        cases t.evaluate <;> exact fun h => nomatch h
      simp [valued]

/-- **Which texts have no value**: those whose parentheses match and which consist of blanks, minus
signs and parentheses. So a text that can be read has an operand if there is a digit or a separator
anywhere in it, however deep. -/
theorem calculate_eq_none_iff (s : String) :
    (calculate s = .ok none ↔
      Matched s.toList ∧ ∀ c ∈ s.toList, isBlank c = true ∨ c = '-' ∨ c = '(' ∨ c = ')') ∧
    ∀ r, (Reader.read s).toExcept = .ok r →
      (∃ c ∈ s.toList, Numeral.accepts c = true) → ∃ t, r.root = some t := by
  have whole := Reader.readAll_toList s
  constructor
  · rw [calculate_eq_none]
    constructor
    · rintro ⟨r, hr, root⟩
      rw [hr] at whole
      rw [← Reader.flatten_root] at root
      exact ⟨Stack.matched_of_readAll whole, (Stack.root_of_readAll whole).1 root⟩
    · rintro ⟨hm, hs⟩
      cases hr : (Reader.read s).toExcept with
      | error e =>
        rw [hr] at whole
        exact absurd whole (Stack.readAll_silent hm hs)
      | ok r =>
        rw [hr] at whole
        refine ⟨r, rfl, ?_⟩
        rw [← Reader.flatten_root]
        exact (Stack.root_of_readAll whole).2 hs
  · rintro r hr ⟨c, hc, ha⟩
    rw [hr] at whole
    refine Option.ne_none_iff_exists'.1 fun root => ?_
    rw [← Reader.flatten_root] at root
    exact not_silent_of_accepts ha ((Stack.root_of_readAll whole).1 root c hc)

example : calculate "-( -\t(--) )" = .ok none := by
  decide

end Reckoner
