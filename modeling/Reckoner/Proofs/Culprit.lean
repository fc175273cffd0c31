import Reckoner.Proofs.Depth
import Reckoner.Proofs.Numerals
import Reckoner.Proofs.Steps
/-!
# Errors point at what is wrong

A stack that has read a text holds, in each of its frames, digits that were gathered at the depth of
the frame. So the span of a malformed numeral is where its digits stand, however far apart they are,
and an unexpected character stands where the error says.

Results:
* `hasRead_step`: what the frames hold, kept by one character.
* `blames_of_step_error`, `blames_of_readAll`: what is wrong if a character fails, or a text.
* `blames_of_read`: every error of a reader points at what is wrong.
-/
namespace Reckoner

/-- What an error in the reading of a text says about the text. -/
def Blames (cs : List Char) : ReadError → Prop
  | .unexpected c p =>
    cs[p]? = some c ∧ isBlank c = false ∧ Numeral.accepts c = false ∧ c ≠ '(' ∧
      (Reader.feed (cs.take p) Reader.start).error? = none ∧
      (Reader.feed (cs.take (p + 1)) Reader.start).error? = some (.unexpected c p) ∧
      (c = ')' → Matched (cs.take p))
  | .malformed text span =>
    Spelt cs text span.start span.stop ∧ ¬ Decimal.IsNumeral text.toList
  | .unclosed depth =>
    (Reader.feed cs Reader.start).error? = none ∧
      NeverBelow cs ∧ nesting cs = depth ∧ 0 < depth
  | .finished => False

/-! ## Frames -/

/-- The numeral holds the digits that were gathered at the depth of its frame. -/
def Gathers (cs : List Char) (d : Int) (n : Numeral) : Prop :=
  n.Located ∧ ∀ span, n.span? = some span → Gathered cs d n.text span.start span.stop

section
variable {cs : List Char} {d : Int} {n : Numeral} {c : Char}

theorem gathers_of_text_eq (h : n.Located) (ht : n.text = "") : Gathers cs d n := by
  refine ⟨h, ?_⟩
  intro span hs
  have := h.1 (by rw [hs]; rfl)
  exact absurd ht this

theorem gathers_concat (h : Gathers cs d n) (hc : d ≤ nesting (cs ++ [c]))
    (own : nesting cs = d → isBlank c = true ∨ c = '(') : Gathers (cs ++ [c]) d n :=
  ⟨h.1, fun span hs => gathered_concat (h.2 span hs) hc own⟩

theorem gathers_push (h : Gathers cs d n) (hd : nesting cs = d) (hc : Numeral.accepts c = true)
    (hn : nesting (cs ++ [c]) = nesting cs) : Gathers (cs ++ [c]) d (n.push c cs.length) := by
  refine ⟨Numeral.located_push _ _ _, ?_⟩
  intro span hs
  obtain ⟨text, span?, negative⟩ := n
  cases span? with
  | none =>
    have empty : text = "" := by
      have := h.1
      simpa [Numeral.Located] using this
    subst empty
    cases hs
    exact gathered_single hd hc hn
  | some old =>
    have gathered : Gathered cs d text old.start old.stop := h.2 old rfl
    have stop : max old.stop (cs.length + 1) = cs.length + 1 :=
      Nat.max_eq_right (Nat.le_succ_of_le gathered.stop_le)
    cases hs
    show Gathered (cs ++ [c]) d (text.push c) old.start (max old.stop (cs.length + 1))
    rw [stop]
    exact gathered_push gathered hd hc hn

/-- A malformed numeral is spelt by the text so far, and by every text that goes on from there. -/
theorem blames_of_settle_error {f : Frame} {e : ReadError} (h : Gathers cs d f.numeral)
    (hs : f.settle.toExcept = .error e) (ds : List Char) : Blames (cs ++ ds) e := by
  obtain ⟨ht, hm, rfl⟩ := Frame.settle_error hs
  rw [Frame.malformed]
  obtain ⟨span, hspan⟩ := Option.isSome_iff_exists.1 (h.1.2 ht)
  rw [hspan, Option.getD_some]
  refine ⟨spelt_of_gathered (h.2 span hspan) ds, ?_⟩
  rw [← Decimal.isSome_ofChars?_iff, hm]
  exact Bool.false_ne_true

end

/-! ## Stacks -/

namespace Stack

/-- Each frame gathers at its own depth, which is the number of frames below it. -/
def Founded (cs : List Char) : List Frame → Prop
  | [] => True
  | f :: fs => Gathers cs fs.length f.numeral ∧ Founded cs fs

/-- The stack has read the text, and nothing else. -/
structure HasRead (cs : List Char) (m : Stack) : Prop where
  unfinished : m.finished = false
  position : m.position = cs.length
  depth : nesting cs = m.below.length
  never_below : NeverBelow cs
  founded : Founded cs (m.top :: m.below)

theorem hasRead_start : HasRead [] start :=
  ⟨rfl, rfl, rfl, fun i => by simp, gathers_of_text_eq Numeral.located_empty rfl, trivial⟩

/-- A character of another frame, a blank and a `(` do not matter to what frames have gathered. -/
theorem founded_concat {cs : List Char} {fs : List Frame} {c : Char} (h : Founded cs fs)
    (deep : (fs.length : Int) ≤ nesting (cs ++ [c]) + 1)
    (own : (fs.length : Int) ≤ nesting cs ∨ isBlank c = true ∨ c = '(') :
    Founded (cs ++ [c]) fs := by
  induction fs with
  | nil => trivial
  | cons f fs ih =>
    -- `f` is as deep as `fs` is long: `c` stands deeper than that, or is one that ends no digits.
    rw [List.length_cons] at deep own
    refine ⟨gathers_concat h.1 (by omega) ?_, ih h.2 (by omega) ?_⟩
    · intro hd
      rcases own with hl | hb
      · omega
      · exact hb
    · rcases own with hl | hb
      · exact .inl (by omega)
      · exact .inr hb

/-- A group that starts has gathered nothing. -/
theorem founded_open {cs : List Char} {m : Stack} (h : HasRead cs m) :
    Founded (cs ++ ['(']) (Frame.empty :: m.top :: m.below) := by
  have depth := h.depth
  have next := nesting_open cs
  refine ⟨gathers_of_text_eq Numeral.located_empty rfl, founded_concat h.founded ?_ ?_⟩
  · rw [List.length_cons]; omega
  · exact .inr (.inr rfl)

/-- A group that ends leaves the digits of the frame around it alone. -/
theorem founded_close {cs : List Char} {m : Stack} (h : HasRead cs m) {f g : Frame}
    {fs : List Frame} (hb : m.below = f :: fs) (hn : g.numeral = f.numeral) :
    Founded (cs ++ [')']) (g :: fs) := by
  have depth := h.depth
  have next := nesting_close cs
  have below := h.founded.2
  rw [hb] at depth below
  rw [List.length_cons] at depth
  have around : Founded (cs ++ [')']) (f :: fs) := by
    refine founded_concat below ?_ (.inl ?_)
    · rw [List.length_cons]; omega
    · rw [List.length_cons]; omega
  refine ⟨?_, around.2⟩
  rw [hn]
  exact around.1

/-- A character that the frame on the top reads may join its digits. -/
theorem founded_readChar {cs : List Char} {m : Stack} (h : HasRead cs m) {c : Char} {g : Frame}
    (plain : nesting (cs ++ [c]) = nesting cs)
    (hr : (m.top.readChar c m.position).toExcept = .ok g) :
    Founded (cs ++ [c]) (g :: m.below) := by
  have depth := h.depth
  obtain ⟨top, below⟩ := h.founded
  have under : Founded (cs ++ [c]) m.below := founded_concat below (by omega) (.inl (by omega))
  have located : g.numeral.Located := by
    obtain ⟨-, hg⟩ := Outcome.toExcept_eq_ok_iff.1 hr
    rw [← hg]
    exact Frame.located_readChar top.1 c m.position
  rcases Frame.readChar_ok hr with ⟨hb, rfl⟩ | ⟨ha, rfl⟩ | ⟨-, ht⟩
  · exact ⟨gathers_concat top (by omega) fun _ => .inl hb, under⟩
  · refine ⟨?_, under⟩
    rw [h.position]
    exact gathers_push top depth ha plain
  · exact ⟨gathers_of_text_eq located ht, under⟩

/-- **One character that is read** is added to what the stack has read. -/
theorem hasRead_step {cs : List Char} {m n : Stack} {c : Char} (h : HasRead cs m)
    (hs : (m.step c).toExcept = .ok n) : HasRead (cs ++ [c]) n := by
  have depth := h.depth
  have position : m.position + 1 = (cs ++ [c]).length := by
    rw [List.length_append, List.length_singleton, h.position]
  rcases step_ok h.unfinished hs with
    ⟨rfl, rfl⟩ | ⟨rfl, f, fs, g, hb, -, rfl⟩ | ⟨ho, hc, g, hr, rfl⟩
  · have next := nesting_open cs
    refine ⟨rfl, position, ?_, neverBelow_concat h.never_below (by omega), founded_open h⟩
    rw [next, depth, List.length_cons]
    rfl
  · have next := nesting_close cs
    rw [hb, List.length_cons] at depth
    refine ⟨rfl, position, ?_, neverBelow_concat h.never_below (by omega),
      founded_close h hb (Frame.numeral_around g.root f)⟩
    simp only
    omega
  · have next := nesting_plain cs ho hc
    exact ⟨rfl, position, next.trans depth, neverBelow_concat h.never_below (by omega),
      founded_readChar h next hr⟩

theorem hasRead_feed {cs : List Char} {n : Stack} (h : (feed cs start).toExcept = .ok n) :
    HasRead cs n :=
  feed_keeps (fun _ _ _ _ => hasRead_step) hasRead_start h

end Stack

/-! ## Whole texts -/

theorem error?_feed (cs : List Char) :
    (Reader.feed cs Reader.start).error? = (Stack.feed cs Stack.start).error? := by
  rw [← Reader.flatten_start, Reader.flatten_feed Reader.tracks_start]
  rfl

/-- **A character that fails** behind a text that does not is wrong where it stands, or ends a
numeral that is. -/
theorem blames_of_step_error {pre post : List Char} {c : Char} {n : Stack} {e : ReadError}
    (hp : (Stack.feed pre Stack.start).toExcept = .ok n) (hc : (n.step c).toExcept = .error e) :
    Blames (pre ++ c :: post) e := by
  have h := Stack.hasRead_feed hp
  rcases Stack.step_error h.unfinished hc with ⟨-, -, hs⟩ | ⟨ho, hb, hr⟩
  · exact blames_of_settle_error h.founded.1 hs _
  · obtain ⟨blank, digit, hs | rfl⟩ := Frame.readChar_error hr
    · exact blames_of_settle_error h.founded.1 hs _
    · have take : (pre ++ c :: post).take n.position = pre := by
        rw [h.position, List.take_left]
      have take_succ : (pre ++ c :: post).take (n.position + 1) = pre ++ [c] := by
        rw [h.position, List.take_append, List.take_of_length_le (by omega)]
        simp
      have fails : (Stack.feed (pre ++ [c]) Stack.start).toExcept =
          .error (.unexpected c n.position) := by
        rw [Stack.feed_append_of_ok hp, Stack.feed_cons_of_error hc]
      refine ⟨by simp [h.position], blank, digit, ho, ?_, ?_, ?_⟩
      · rw [take, error?_feed]; exact (Outcome.toExcept_eq_ok_iff.1 hp).1
      · rw [take_succ, error?_feed]; exact Outcome.toExcept_eq_error_iff.1 fails
      · intro he
        rw [take]
        have closed := h.depth
        rw [hb he] at closed
        exact ⟨h.never_below, closed⟩

/-- An error in the reading of a text is one of a character, or one of its end. -/
theorem blames_of_readAll {cs : List Char} {e : ReadError}
    (h : Stack.readAll cs Stack.start = .error e) : Blames cs e := by
  rcases Stack.readAll_error h with hf | ⟨n, hn, hf⟩
  · obtain ⟨pre, c, post, n, rfl, hp, hc⟩ := Stack.feed_error hf
    exact blames_of_step_error hp hc
  · have hr := Stack.hasRead_feed hn
    rcases Stack.finish_error hr.unfinished hf with ⟨pos, rfl⟩ | ⟨-, hs⟩
    · refine ⟨?_, hr.never_below, hr.depth, pos⟩
      rw [error?_feed]
      exact (Outcome.toExcept_eq_ok_iff.1 hn).1
    · have := blames_of_settle_error hr.founded.1 hs []
      rwa [List.append_nil] at this

/-- **An error points at what is wrong.** An unexpected character stands at its position, behind a
text that can be read; a malformed numeral is spelt in its span, and is none; and a text that is
unclosed can be read, up to the groups that are open at its end. -/
theorem blames_of_read {text : String} {e : ReadError}
    (h : (Reader.read text).toExcept = .error e) : Blames text.toList e := by
  have fails := Reader.readAll_toList text
  rw [h] at fails
  exact blames_of_readAll fails

/-- The digits of a malformed numeral may stand on both sides of a group. -/
theorem blames_of_read_scattered :
    (Reader.read "-(1 .2( ), )").toExcept = .error (.malformed "1.2," ⟨2, 10⟩) ∧
      Blames "-(1 .2( ), )".toList (.malformed "1.2," ⟨2, 10⟩) :=
  have fails : (Reader.read "-(1 .2( ), )").toExcept = .error (.malformed "1.2," ⟨2, 10⟩) :=
    Outcome.toExcept_eq_error_iff.2 (by decide)
  ⟨fails, blames_of_read fails⟩

end Reckoner
