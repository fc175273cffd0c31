import Reckoner.Proofs.BatchReader
import Reckoner.Tree.Walk
/-!
# Reading what was written

The text of a tree is read back as that tree, if there is nothing in it that cannot be read: an
operand that is missing, an infinity, or a NaN. Otherwise reading stops at the first character of
such a thing.

Results:
* `places_number`: the text of a finite number is read as that number, bit by bit.
* `places_of_isReadable`: where an operand is awaited, the text of a tree places that tree.
* `stops_of_not_isReadable`: or it is read up to the first character that is in no such text.
* `read_text`: both, for whole texts.
-/
namespace Reckoner

/-! ## Characters -/

theorem Numeral.accepts_of_mem_chars {d : Decimal} {c : Char} (h : c ∈ d.chars) :
    accepts c = true := by
  have digit : c.isDigit = true ∨ c = '.' := by
    unfold Decimal.chars at h
    split at h
    · exact .inl (Decimal.isDigit_of_mem_whole h)
    · rcases List.mem_append.1 h with h | h
      · exact .inl (Decimal.isDigit_of_mem_whole h)
      · rcases List.mem_cons.1 h with rfl | h
        · exact .inr rfl
        · exact .inl (Decimal.isDigit_of_mem_fraction h)
  rcases digit with h | rfl
  · simp [accepts, h]
  · decide

theorem Decimal.chars_ne_nil (d : Decimal) : d.chars ≠ [] := by
  intro h
  have := d.ofChars?_chars
  rw [h] at this
  cases this

/-! ## Single characters on a stack -/

namespace Stack
open Reckoner.Frame (pending)
open Segment

theorem start_eq_pending : start = ⟨pending [] ⟨none, false⟩, [], 0, false⟩ := rfl

theorem feed_space (cs : List Char) (f : Frame) (fs : List Frame) (p : Nat) :
    (feed (' ' :: cs) ⟨f, fs, p, false⟩).toExcept = (feed cs ⟨f, fs, p + 1, false⟩).toExcept := by
  rw [toExcept_feed_cons, step_plain f fs p (by decide) (by decide)]
  rfl

/-- Where an operand is awaited, a minus sign waits for its number. -/
theorem feed_minus {root : Option Tree} (hr : root.filter Tree.isComplete = none) (cs : List Char)
    (fs : List Frame) (p : Nat) :
    (feed ('-' :: cs) ⟨pending [] ⟨root, false⟩, fs, p, false⟩).toExcept =
      (feed cs ⟨pending [] ⟨root, true⟩, fs, p + 1, false⟩).toExcept := by
  have read : ((pending [] ⟨root, false⟩).readChar '-' p).toExcept =
      .ok (pending [] ⟨root, true⟩) := by
    rw [Frame.readChar, if_neg (by decide), if_neg (by decide),
      Frame.toExcept_readOperator_pending, Frame.pass_digits]
    simp [literal, extent?, Except.map, Except.bind, Progress.cut, hr]
  rw [toExcept_feed_cons, step_plain _ fs p (by decide) (by decide), read]
  rfl

/-- Behind an operand that ends now and is complete, an operator takes the tree. -/
theorem feed_operator (op : Op) {t : Tree} (ht : t.isComplete = true) {f : Frame}
    (hf : f.settle.toExcept = .ok (pending [] ⟨some t, false⟩)) (cs : List Char)
    (fs : List Frame) (p : Nat) :
    (feed (op.symbol :: cs) ⟨f, fs, p, false⟩).toExcept =
      (feed cs ⟨pending [] ⟨some (.pending op t), false⟩, fs, p + 1, false⟩).toExcept := by
  have read : (f.readChar op.symbol p).toExcept =
      .ok (pending [] ⟨some (.pending op t), false⟩) := by
    have hb : isBlank op.symbol = false := by cases op <;> decide
    have ha : Numeral.accepts op.symbol = false := by cases op <;> decide
    rw [Frame.readChar, hb, ha]
    simp only [Bool.false_eq_true, if_false, Frame.readOperator, Outcome.toExcept_andThen, hf]
    simp [Except.bind, Frame.complete?, pending, Option.filter, ht, Outcome.done, Outcome.toExcept]
  have ho : op.symbol ≠ '(' := by cases op <;> decide
  have hc : op.symbol ≠ ')' := by cases op <;> decide
  rw [toExcept_feed_cons, step_plain f fs p ho hc, read]
  rfl

/-- Characters of a numeral are gathered. -/
theorem feed_digits {cs : List Char} (hc : ∀ c ∈ cs, Numeral.accepts c = true)
    {digits : List (Char × Position)} {p : Nat} (hd : ∀ d ∈ digits, d.2 < p) (σ : Progress)
    (fs : List Frame) :
    (feed cs ⟨pending digits σ, fs, p, false⟩).toExcept =
      .ok ⟨pending (digits ++ cs.zipIdx p) σ, fs, p + cs.length, false⟩ := by
  induction cs generalizing digits p with
  | nil => simp [feed]
  | cons c cs ih =>
    have ha := hc c List.mem_cons_self
    have ho : c ≠ '(' := by rintro rfl; revert ha; decide
    have hp : c ≠ ')' := by rintro rfl; revert ha; decide
    have read : ((pending digits σ).readChar c p).toExcept =
        .ok (pending (digits ++ [(c, p)]) σ) := by
      rw [Frame.readChar, Numeral.isBlank_of_accepts ha, ha]
      simp only [Bool.false_eq_true, if_false, if_true, Outcome.toExcept_done,
        Frame.push_pending hd]
    have next := ih (fun d m => hc d (List.mem_cons_of_mem c m)) (lt_succ_of_mem_append c hd)
    rw [toExcept_feed_cons, step_plain _ fs p ho hp, read]
    simp only [Except.map, Except.bind, next, List.append_assoc, List.singleton_append,
      List.zipIdx_cons, List.length_cons, Nat.add_right_comm p 1]
    rfl

/-- The digits that are written for a magnitude end as the number that it was written for. -/
theorem settle_digits (s : Signed) (root : Option Tree) (p : Nat) :
    (pending (s.magnitude.decimal.chars.zipIdx p) ⟨root, s.negative⟩).settle.toExcept =
      .ok (pending [] ⟨Progress.put root (.number s.toFloat), false⟩) := by
  have some : s.magnitude.decimal.chars.zipIdx p ≠ [] := by simp [Decimal.chars_ne_nil]
  have spelt : spelling (s.magnitude.decimal.chars.zipIdx p) = s.magnitude.decimal.chars :=
    List.zipIdx_map_fst p _
  obtain ⟨d, ds, h⟩ := List.exists_cons_of_ne_nil some
  rw [h] at spelt
  rw [h, Frame.toExcept_settle_pending, Frame.pass_digits, literal, Frame.extent?_cons]
  simp only [spelt, Decimal.ofChars?_chars, Magnitude.magnitude_decimal]
  simp [Except.map]

/-- Where an operand is awaited, the text places the tree; the last digits of it may be pending. -/
def Places (cs : List Char) (t : Tree) : Prop :=
  ∀ (root : Option Tree) (fs : List Frame) (p : Nat), root.filter Tree.isComplete = none →
    ∃ f : Frame, (feed cs ⟨pending [] ⟨root, false⟩, fs, p, false⟩).toExcept =
        .ok ⟨f, fs, p + cs.length, false⟩ ∧
      f.settle.toExcept = .ok (pending [] ⟨Progress.put root t, false⟩)

/-- **A finite number** is read as it was, bit by bit. -/
theorem places_number {x : Float} (hx : x.isFinite = true) :
    Places (numberText x).toList (.number x) := by
  intro root fs p hr
  rw [Signed.isFinite_eq] at hx
  obtain ⟨s, hs⟩ : ∃ s, Signed.ofFloat? x = some s :=
    Option.isSome_iff_exists.1 (Option.isSome_of_any hx)
  have finite : s.magnitude.isFinite = true := by simpa [hs] using hx
  have same : s.toFloat = x := Signed.toFloat_of_ofFloat? hs
  have text : (numberText x).toList = s.chars := by simp [numberText, hs]
  have chars : s.magnitude.chars = s.magnitude.decimal.chars := if_pos finite
  have digits (q : Nat) :
      (feed s.magnitude.decimal.chars ⟨pending [] ⟨root, s.negative⟩, fs, q, false⟩).toExcept =
        .ok ⟨pending (s.magnitude.decimal.chars.zipIdx q) ⟨root, s.negative⟩, fs,
          q + s.magnitude.decimal.chars.length, false⟩ :=
    feed_digits (fun _ h => Numeral.accepts_of_mem_chars h) (fun _ h => absurd h List.not_mem_nil)
      ⟨root, s.negative⟩ fs
  have ends := settle_digits s root
  rw [text, Signed.chars, chars]
  rw [same] at ends
  cases hn : s.negative with
  | false =>
    rw [hn] at digits ends
    exact ⟨_, digits p, ends p⟩
  | true =>
    rw [hn] at digits ends
    refine ⟨_, ?_, ends (p + 1)⟩
    rw [if_pos rfl, feed_minus hr, digits, List.length_cons, Nat.add_right_comm p 1]
    rfl

end Stack

/-! ## Readable trees -/

namespace Tree

/-- Whether there is a finite number in every leaf. -/
def isFinite (t : Tree) : Bool :=
  t.postorder.all fun
    | number x => x.isFinite
    | _ => true

/-- Whether no node misses an operand, and all numbers are finite. -/
def isReadable (t : Tree) : Bool := t.isFullyComplete && t.isFinite

theorem isReadable_number (x : Float) : (number x).isReadable = x.isFinite := by
  simp [isReadable, isFullyComplete, isFinite, any_eq_any_postorder, postorder, isComplete]

theorem isReadable_pending (op : Op) (l : Tree) : (pending op l).isReadable = false := by
  simp [isReadable, isFullyComplete, any_eq_any_postorder, postorder, isComplete]

theorem isReadable_binary (op : Op) (l r : Tree) :
    (binary op l r).isReadable = (l.isReadable && r.isReadable) := by
  simp only [isReadable, isFullyComplete, isFinite, any_eq_any_postorder, postorder,
    List.any_append, List.any_cons, List.any_nil, List.all_append, List.all_cons, List.all_nil,
    isComplete, Bool.not_true, Bool.or_false, Bool.and_true, Bool.not_or]
  ac_rfl

theorem isComplete_of_isReadable {t : Tree} (h : t.isReadable = true) : t.isComplete = true := by
  cases t with
  | pending op l => rw [isReadable_pending] at h; cases h
  | _ => rfl

/-! ## Texts -/

theorem toList_text_pending (op : Op) (l : Tree) :
    (pending op l).text.toList =
      '(' :: (l.text.toList ++ ' ' :: op.symbol :: ' ' :: ['?', ')']) := by
  simp [text]

theorem toList_text_binary (op : Op) (l r : Tree) :
    (binary op l r).text.toList =
      '(' :: (l.text.toList ++ ' ' :: op.symbol :: ' ' :: (r.text.toList ++ [')'])) := by
  simp [text]

end Tree

namespace Stack
open Reckoner.Frame (pending)

/-- A group that starts with a tree and an operator waits for the right operand. -/
theorem feed_left {l : Tree} (op : Op) (hl : Places l.text.toList l) (hc : l.isComplete = true)
    (rest : List Char) (f : Frame) (fs : List Frame) (p : Nat) :
    (feed ('(' :: (l.text.toList ++ ' ' :: op.symbol :: ' ' :: rest)) ⟨f, fs, p, false⟩).toExcept =
      (feed rest ⟨pending [] ⟨some (.pending op l), false⟩, f :: fs,
        p + l.text.toList.length + 4, false⟩).toExcept := by
  obtain ⟨g, read, ends⟩ := hl none (f :: fs) (p + 1) rfl
  have position : p + l.text.toList.length + 4 = p + 1 + l.text.toList.length + 1 + 1 + 1 := by omega
  rw [toExcept_feed_cons, step_open rfl]
  show (feed _ ⟨pending [] ⟨none, false⟩, f :: fs, p + 1, false⟩).toExcept = _
  rw [toExcept_feed_append, read]
  simp only [Except.bind]
  rw [feed_space, feed_operator op hc ends, feed_space, position]

/-- **A group** between whose parentheses stand two trees and an operator is placed as one tree. -/
theorem places_binary {l r : Tree} (op : Op) (hl : Places l.text.toList l)
    (hr : Places r.text.toList r) (hc : l.isComplete = true) :
    Places (Tree.binary op l r).text.toList (.binary op l r) := by
  intro root fs p _
  refine ⟨pending [] ⟨Progress.put root (.binary op l r), false⟩, ?_, ?_⟩
  · obtain ⟨g, read, ends⟩ := hr (some (.pending op l)) (pending [] ⟨root, false⟩ :: fs)
      (p + l.text.toList.length + 4) rfl
    have position : p + l.text.toList.length + 4 + r.text.toList.length + 1 =
        p + (Tree.binary op l r).text.toList.length := by
      simp only [Tree.toList_text_binary, List.length_cons, List.length_append, List.length_nil]
      omega
    rw [← position, Tree.toList_text_binary, feed_left op hl hc, toExcept_feed_append, read]
    simp only [Except.bind]
    rw [toExcept_feed_cons, step_close rfl rfl, toExcept_close, ends]
    have placed := Frame.place_pending (.binary op l r) [] ⟨root, false⟩
    exact congrArg (fun g : Frame => Except.ok (Stack.mk g fs _ false)) placed
  · rw [Frame.toExcept_settle_pending, Frame.pass_digits]
    rfl

/-- **The text of a readable tree** places that tree where an operand is awaited. -/
theorem places_of_isReadable {t : Tree} (ht : t.isReadable = true) : Places t.text.toList t := by
  induction t with
  | number x => exact places_number ((Tree.isReadable_number x).symm.trans ht)
  | pending op l _ => rw [Tree.isReadable_pending] at ht; cases ht
  | binary op l r ihl ihr =>
    rw [Tree.isReadable_binary, Bool.and_eq_true] at ht
    exact places_binary op (ihl ht.1) (ihr ht.2) (Tree.isComplete_of_isReadable ht.1)

/-! ## Marks -/

/-- The characters that stand for what cannot be read: a missing operand, an infinity, a NaN. -/
def isMark (c : Char) : Bool := c == '?' || c == 'i' || c == 'N'

theorem readChar_mark {c : Char} (hm : isMark c = true) (f : Frame) (p : Position) :
    f.readChar c p = f.readOperator c p ∧ c ≠ '(' ∧ c ≠ ')' ∧ c ≠ '-' ∧ Op.ofChar? c = none := by
  simp only [isMark, Bool.or_eq_true, beq_iff_eq] at hm
  rcases hm with (rfl | rfl) | rfl
  all_goals exact ⟨rfl, by decide, by decide, by decide, by decide⟩

/-- No character that can be read is a mark. -/
theorem not_isMark_of_step {c : Char} {m n : Stack} (h : (m.step c).toExcept = .ok n) :
    isMark c = false := by
  cases hm : isMark c with | false => rfl | true => ?_
  obtain ⟨read, ho, hp, hn, hop⟩ := readChar_mark hm m.top m.position
  cases hf : m.finished with
  | true => rw [step_of_finished hf] at h; cases h
  | false =>
    rw [step_own hf ho fun e => absurd e hp, readOwn, read, Outcome.toExcept_map,
      Frame.readOperator, Outcome.toExcept_andThen] at h
    cases hs : m.top.settle.toExcept with
    | error e => rw [hs] at h; cases h
    | ok f =>
      cases hc : f.complete? <;> simp [hs, hc, hop, hn, Except.bind, Except.map] at h

theorem not_isMark_of_feed {cs : List Char} {m n : Stack} (h : (feed cs m).toExcept = .ok n) :
    ∀ c ∈ cs, isMark c = false := by
  induction cs generalizing m with
  | nil => exact fun c hc => absurd hc List.not_mem_nil
  | cons c cs ih =>
    rw [toExcept_feed_cons] at h
    cases hs : (m.step c).toExcept with
    | error e => rw [hs] at h; cases h
    | ok k =>
      rw [hs] at h
      intro d hd
      rcases List.mem_cons.1 hd with rfl | hd
      · exact not_isMark_of_step hs
      · exact ih h d hd

/-- The text is read up to its first mark, and not further. -/
def Stops (cs : List Char) (m : Stack) : Prop :=
  ∃ pre c post, cs = pre ++ c :: post ∧ (∀ d ∈ pre, isMark d = false) ∧ isMark c = true ∧
    (feed cs m).toExcept = .error (.unexpected c (m.position + pre.length))

/-- Where an operand is awaited, with a sign or without, a mark stops the reader. -/
theorem stops_mark {c : Char} (hm : isMark c = true) {σ : Progress}
    (hr : σ.root.filter Tree.isComplete = none) (cs : List Char) (fs : List Frame) (p : Position) :
    Stops (c :: cs) ⟨pending [] σ, fs, p, false⟩ := by
  obtain ⟨read, ho, hp, hn, -⟩ := readChar_mark hm (pending [] σ) p
  have pass : σ.pass ⟨[], []⟩ = .ok σ := by
    rw [Frame.pass_digits]
    simp [Segment.literal, Segment.extent?, Except.map]
  have fails : ((pending [] σ).readOperator c p).toExcept = .error (.unexpected c p) := by
    rw [Frame.toExcept_readOperator_pending, pass]
    simp [Except.bind, Except.map, Progress.cut, hr, hn]
  refine ⟨[], c, cs, rfl, fun d hd => absurd hd List.not_mem_nil, hm, ?_⟩
  rw [toExcept_feed_cons, step_plain _ fs p ho hp, read, fails]
  rfl

theorem stops_append {cs : List Char} {m : Stack} (h : Stops cs m) (ds : List Char) :
    Stops (cs ++ ds) m := by
  obtain ⟨pre, c, post, rfl, hpre, hm, fails⟩ := h
  refine ⟨pre, c, post ++ ds, by simp, hpre, hm, ?_⟩
  rw [toExcept_feed_append, fails]
  rfl

/-- What can be read in front of it does not matter. -/
theorem stops_of_feed {cs ds : List Char} {m n : Stack} (read : (feed cs m).toExcept = .ok n)
    (hp : n.position = m.position + cs.length) (h : Stops ds n) : Stops (cs ++ ds) m := by
  obtain ⟨pre, c, post, rfl, hpre, hm, fails⟩ := h
  refine ⟨cs ++ pre, c, post, by simp, ?_, hm, ?_⟩
  · intro d hd
    rcases List.mem_append.1 hd with hd | hd
    · exact not_isMark_of_feed read d hd
    · exact hpre d hd
  · rw [toExcept_feed_append, read]
    rw [hp] at fails
    rw [List.length_append, ← Nat.add_assoc]
    exact fails

theorem stops_number {x : Float} (hx : x.isFinite = false) {root : Option Tree}
    (hr : root.filter Tree.isComplete = none) (fs : List Frame) (p : Nat) :
    Stops (numberText x).toList ⟨pending [] ⟨root, false⟩, fs, p, false⟩ := by
  rw [Signed.isFinite_eq] at hx
  cases hs : Signed.ofFloat? x with
  | none =>
    have text : (numberText x).toList = ['N', 'a', 'N'] := by simp [numberText, hs]
    rw [text]
    exact stops_mark rfl hr _ fs p
  | some s =>
    have infinite : ¬ s.magnitude.isFinite = true := by simpa [hs] using hx
    have text : (numberText x).toList = s.chars := by simp [numberText, hs]
    have chars : s.magnitude.chars = ['i', 'n', 'f'] := if_neg infinite
    rw [text, Signed.chars, chars]
    cases s.negative with
    | false => exact stops_mark rfl hr _ fs p
    | true =>
      have signed : (feed ['-'] ⟨pending [] ⟨root, false⟩, fs, p, false⟩).toExcept =
        .ok ⟨pending [] ⟨root, true⟩, fs, p + 1, false⟩ := feed_minus hr [] fs p
      exact stops_of_feed signed rfl (stops_mark rfl hr _ fs (p + 1))

/-- A group is read up to the first mark in its left operand, if there is one, and up to the first
mark behind the operator otherwise. -/
theorem stops_group {l : Tree} (op : Op) {rest : List Char} {f : Frame} {fs : List Frame} {p : Nat}
    (hl : l.isReadable = false →
      Stops l.text.toList ⟨pending [] ⟨none, false⟩, f :: fs, p + 1, false⟩)
    (hr : l.isReadable = true → Stops rest ⟨pending [] ⟨some (.pending op l), false⟩, f :: fs,
      p + l.text.toList.length + 4, false⟩) :
    Stops ('(' :: (l.text.toList ++ ' ' :: op.symbol :: ' ' :: rest)) ⟨f, fs, p, false⟩ := by
  cases h : l.isReadable with
  | false =>
    have opened : (feed ['('] ⟨f, fs, p, false⟩).toExcept =
      .ok ⟨pending [] ⟨none, false⟩, f :: fs, p + 1, false⟩ := rfl
    exact stops_of_feed opened rfl (stops_append (hl h) _)
  | true =>
    have left := feed_left op (places_of_isReadable h) (Tree.isComplete_of_isReadable h) [] f fs p
    have split : '(' :: (l.text.toList ++ ' ' :: op.symbol :: ' ' :: rest) =
        '(' :: (l.text.toList ++ ' ' :: op.symbol :: ' ' :: []) ++ rest := by simp
    rw [split]
    refine stops_of_feed left ?_ (hr h)
    show p + l.text.toList.length + 4 = _
    simp only [List.length_cons, List.length_append, List.length_nil]
    omega

/-- **The text of any other tree** is read up to the first operand that is missing, infinite or a
NaN. -/
theorem stops_of_not_isReadable {t : Tree} (ht : t.isReadable = false) {root : Option Tree}
    (hr : root.filter Tree.isComplete = none) (fs : List Frame) (p : Nat) :
    Stops t.text.toList ⟨pending [] ⟨root, false⟩, fs, p, false⟩ := by
  induction t generalizing root fs p with
  | number x => exact stops_number ((Tree.isReadable_number x).symm.trans ht) hr fs p
  | pending op l ih =>
    rw [Tree.toList_text_pending]
    exact stops_group op (fun h => ih h rfl _ _) fun _ => stops_mark rfl rfl _ _ _
  | binary op l r ihl ihr =>
    rw [Tree.toList_text_binary]
    refine stops_group op (fun h => ihl h rfl _ _) fun h => stops_append (ihr ?_ rfl _ _) _
    rw [Tree.isReadable_binary, h, Bool.true_and] at ht
    exact ht

end Stack

/-! ## Whole texts -/

open Stack (isMark)

theorem read_of_isReadable {t : Tree} (ht : t.isReadable = true) :
    ∃ r, (Reader.read t.text).toExcept = .ok r ∧ r.root = some t := by
  obtain ⟨f, read, ends⟩ := Stack.places_of_isReadable ht none [] 0 rfl
  have root : (Reader.read t.text).toExcept.map Reader.root = .ok (some t) := by
    rw [Reader.toExcept_read, Stack.read, Outcome.toExcept_andThen,
      Stack.start_eq_pending, read]
    exact (Stack.finish_start f _).trans (by rw [ends]; rfl)
  cases hr : (Reader.read t.text).toExcept with
  | error e => rw [hr] at root; cases root
  | ok r => rw [hr] at root; exact ⟨r, rfl, Except.ok.inj root⟩

theorem read_of_not_isReadable {t : Tree} (ht : t.isReadable = false) :
    ∃ pre c post, t.text.toList = pre ++ c :: post ∧ (∀ d ∈ pre, isMark d = false) ∧
      isMark c = true ∧ (Reader.read t.text).toExcept = .error (.unexpected c pre.length) := by
  have awaits : (none : Option Tree).filter Tree.isComplete = none := rfl
  obtain ⟨pre, c, post, text, hpre, hm, fails⟩ := Stack.stops_of_not_isReadable ht awaits [] 0
  refine ⟨pre, c, post, text, hpre, hm, ?_⟩
  have root : (Reader.read t.text).toExcept.map Reader.root =
      .error (.unexpected c (0 + pre.length)) := by
    rw [Reader.toExcept_read, Stack.read, Outcome.toExcept_andThen,
      Stack.start_eq_pending, fails]
    rfl
  rw [Nat.zero_add] at root
  cases hr : (Reader.read t.text).toExcept with
  | error e => rw [hr] at root; cases root; rfl
  | ok r => rw [hr] at root; cases root

/-- **A tree without missing operands, infinities and NaNs is read back** from its text as it is,
bit by bit. The text of any other tree is read up to the first character that stands for one of
these. -/
theorem read_text (t : Tree) :
    if t.isFullyComplete && t.isFinite then
      ∃ r, (Reader.read t.text).toExcept = .ok r ∧ r.root = some t
    else
      ∃ pre c post, t.text.toList = pre ++ c :: post ∧ (∀ d ∈ pre, isMark d = false) ∧
        isMark c = true ∧ (Reader.read t.text).toExcept = .error (.unexpected c pre.length) := by
  show if t.isReadable = true then _ else _
  cases ht : t.isReadable with
  | true => exact read_of_isReadable ht
  | false => exact read_of_not_isReadable ht

end Reckoner
