import Reckoner.Proofs.RoundTrip
/-!
# Different trees have different texts

The text of a tree tells the tree, also where it cannot be read back. A number ends at the first
blank or parenthesis, a group starts with a parenthesis, and the two forms of a number never meet,
so what stands at the front of a text, and what is left behind it, can be found in one way only.

Results:
* `sameNumber_of_numberText`: the text of a number tells it bit by bit, but for the bits of a NaN.
* `alike_of_text_append`: a text in front of another tells its tree, and where it ends.
* `text_eq_iff_alike`: two trees have the same text exactly if they are alike.
-/
namespace Reckoner

/-- Bit by bit the same double, where all NaNs count as one. -/
def SameNumber (x y : Float) : Prop := x.toBits = y.toBits ∨ (x.isNaN = true ∧ y.isNaN = true)

namespace Tree

/-- Of one shape, with the same operators, the same operands missing, and the same numbers. -/
def Alike : Tree → Tree → Prop
  | number x, number y => SameNumber x y
  | pending a l, pending b m => a = b ∧ l.Alike m
  | binary a l r, binary b m s => a = b ∧ l.Alike m ∧ r.Alike s
  | _, _ => False

end Tree

/-! ## Numbers -/

theorem Decimal.chars_injective {d e : Decimal} (h : d.chars = e.chars) : d = e := by
  have same := congrArg ofChars? h
  rw [ofChars?_chars, ofChars?_chars] at same
  exact Option.some.inj same

namespace Magnitude

theorem decimal_injective {m n : Magnitude} (h : m.decimal = n.decimal) : m = n := by
  have same := congrArg Decimal.magnitude h
  rwa [magnitude_decimal, magnitude_decimal] at same

theorem chars_of_isFinite {m : Magnitude} (h : m.isFinite = true) : m.chars = m.decimal.chars :=
  if_pos h

theorem chars_of_not_isFinite {m : Magnitude} (h : m.isFinite = false) :
    m.chars = ['i', 'n', 'f'] :=
  if_neg (Bool.eq_false_iff.1 h)

theorem mem_chars {m : Magnitude} {c : Char} (h : c ∈ m.chars) :
    Numeral.accepts c = true ∨ c ∈ ['i', 'n', 'f'] := by
  cases hm : m.isFinite with
  | true =>
    rw [chars_of_isFinite hm] at h
    exact .inl (Numeral.accepts_of_mem_chars h)
  | false =>
    rw [chars_of_not_isFinite hm] at h
    exact .inr h

theorem chars_ne_nil (m : Magnitude) : m.chars ≠ [] := by
  cases hm : m.isFinite with
  | true =>
    rw [chars_of_isFinite hm]
    exact m.decimal.chars_ne_nil
  | false =>
    rw [chars_of_not_isFinite hm]
    simp

/-- No magnitude in digits is written as the infinite one. -/
theorem chars_ne_of_isFinite {m n : Magnitude} (hm : m.isFinite = true)
    (hn : n.isFinite = false) : m.chars ≠ n.chars := by
  intro h
  rw [chars_of_isFinite hm, chars_of_not_isFinite hn] at h
  have letter : 'i' ∈ m.decimal.chars := by simp [h]
  exact absurd (Numeral.accepts_of_mem_chars letter) (by decide)

/-- Whole numbers and others are written differently, and all of them read back. -/
theorem chars_injective {m n : Magnitude} (h : m.chars = n.chars) : m = n := by
  cases hm : m.isFinite with
  | true =>
    cases hn : n.isFinite with
    | true =>
      rw [chars_of_isFinite hm, chars_of_isFinite hn] at h
      exact decimal_injective (Decimal.chars_injective h)
    | false => exact absurd h (chars_ne_of_isFinite hm hn)
  | false =>
    cases hn : n.isFinite with
    | true => exact absurd h.symm (chars_ne_of_isFinite hn hm)
    | false => rw [eq_infinity hm, eq_infinity hn]

end Magnitude

namespace Signed

theorem minus_not_mem (m : Magnitude) : '-' ∉ m.chars := by
  intro h
  rcases Magnitude.mem_chars h with h | h
  · revert h
    decide
  · revert h
    decide

theorem chars_positive (m : Magnitude) : chars ⟨false, m⟩ = m.chars := rfl

theorem chars_negative (m : Magnitude) : chars ⟨true, m⟩ = '-' :: m.chars := rfl

theorem chars_injective {x y : Signed} (h : x.chars = y.chars) : x = y := by
  obtain ⟨s, m⟩ := x
  obtain ⟨t, n⟩ := y
  cases s with
  | false =>
    cases t with
    | false =>
      rw [chars_positive, chars_positive] at h
      rw [Magnitude.chars_injective h]
    | true =>
      rw [chars_positive, chars_negative] at h
      exact absurd (h ▸ List.mem_cons_self) (minus_not_mem m)
  | true =>
    cases t with
    | false =>
      rw [chars_positive, chars_negative] at h
      exact absurd (h ▸ List.mem_cons_self) (minus_not_mem n)
    | true =>
      rw [chars_negative, chars_negative] at h
      rw [Magnitude.chars_injective (List.cons.inj h).2]

theorem chars_ne_nil (x : Signed) : x.chars ≠ [] := by
  unfold chars
  split
  · simp
  · exact x.magnitude.chars_ne_nil

theorem mem_chars {x : Signed} {c : Char} (h : c ∈ x.chars) :
    Numeral.accepts c = true ∨ c ∈ ['-', 'i', 'n', 'f'] := by
  have magnitude (hm : c ∈ x.magnitude.chars) :
      Numeral.accepts c = true ∨ c ∈ ['-', 'i', 'n', 'f'] :=
    (Magnitude.mem_chars hm).imp_right (List.mem_cons_of_mem _)
  unfold chars at h
  split at h
  · rcases List.mem_cons.1 h with rfl | h
    · exact .inr (by decide)
    · exact magnitude h
  · exact magnitude h

theorem chars_ne_nan (x : Signed) : x.chars ≠ ['N', 'a', 'N'] := by
  intro h
  have letter : 'N' ∈ x.chars := by simp [h]
  rcases mem_chars letter with h | h
  · revert h
    decide
  · revert h
    decide

end Signed

theorem toList_numberText (x : Float) :
    (numberText x).toList = ((Signed.ofFloat? x).map Signed.chars).getD ['N', 'a', 'N'] := by
  unfold numberText
  cases Signed.ofFloat? x with
  | none => rfl
  | some s => simp

/-- **The text of a number** tells it bit by bit, but for the bits of a NaN. -/
theorem sameNumber_of_numberText {x y : Float}
    (h : (numberText x).toList = (numberText y).toList) : SameNumber x y := by
  rw [toList_numberText, toList_numberText] at h
  unfold SameNumber
  rw [Signed.isNaN_eq, Signed.isNaN_eq]
  cases hx : Signed.ofFloat? x with
  | none =>
    cases hy : Signed.ofFloat? y with
    | none => exact .inr ⟨rfl, rfl⟩
    | some t =>
      rw [hx, hy] at h
      exact absurd h.symm t.chars_ne_nan
  | some s =>
    cases hy : Signed.ofFloat? y with
    | none =>
      rw [hx, hy] at h
      exact absurd h s.chars_ne_nan
    | some t =>
      rw [hx, hy] at h
      have same : s = t := Signed.chars_injective h
      left
      rw [← Signed.toFloat_of_ofFloat? hx, ← Signed.toFloat_of_ofFloat? hy, same]

theorem numberText_of_sameNumber {x y : Float} (h : SameNumber x y) :
    numberText x = numberText y := by
  rcases h with bits | ⟨hx, hy⟩
  · rw [Encoding.eq_of_toBits_eq bits]
  · rw [Signed.isNaN_eq, Option.isNone_iff_eq_none] at hx hy
    rw [numberText, hx, numberText, hy]

/-! ## Where a text ends -/

/-- The characters of the text of a tree that belong to no number and no operator. -/
def isBreak (c : Char) : Bool := c == ' ' || c == '(' || c == ')' || c == '?'

/-- Nothing follows, or a break does. -/
def Ends (cs : List Char) : Prop := ∀ c ∈ cs.head?, isBreak c = true

theorem ends_cons {c : Char} (h : isBreak c = true) (cs : List Char) : Ends (c :: cs) := by
  intro d hd
  cases hd
  exact h

theorem not_isBreak_of_accepts {c : Char} (h : Numeral.accepts c = true) : isBreak c = false := by
  rw [Bool.eq_false_iff]
  intro broken
  simp only [isBreak, Bool.or_eq_true, beq_iff_eq] at broken
  rcases broken with ((rfl | rfl) | rfl) | rfl
  all_goals exact absurd h (by decide)

theorem not_isBreak_of_all {cs : List Char} (hs : cs.all (fun c => !isBreak c) = true) {c : Char}
    (h : c ∈ cs) : isBreak c = false := by
  simpa using List.all_eq_true.1 hs c h

theorem not_isBreak_of_mem {x : Float} {c : Char} (h : c ∈ (numberText x).toList) :
    isBreak c = false := by
  rw [toList_numberText] at h
  cases hx : Signed.ofFloat? x with
  | none =>
    rw [hx] at h
    exact not_isBreak_of_all (by decide) h
  | some s =>
    rw [hx] at h
    rcases Signed.mem_chars h with digit | letter
    · exact not_isBreak_of_accepts digit
    · exact not_isBreak_of_all (by decide) letter

theorem numberText_ne_nil (x : Float) : (numberText x).toList ≠ [] := by
  rw [toList_numberText]
  cases Signed.ofFloat? x with
  | none => simp
  | some s => exact s.chars_ne_nil

theorem takeWhile_of_ends {cs : List Char} (h : Ends cs) :
    cs.takeWhile (fun c => !isBreak c) = [] := by
  cases cs with
  | nil => rfl
  | cons c cs =>
    have broken : isBreak c = true := h c rfl
    simp [broken]

/-- A number in front of a break ends there. -/
theorem number_append_inj {x y : Float} {a b : List Char} (ha : Ends a) (hb : Ends b)
    (h : (numberText x).toList ++ a = (numberText y).toList ++ b) :
    (numberText x).toList = (numberText y).toList ∧ a = b := by
  have front (z : Float) {cs : List Char} (hc : Ends cs) :
      ((numberText z).toList ++ cs).takeWhile (fun c => !isBreak c) = (numberText z).toList := by
    rw [List.takeWhile_append_of_pos fun c hc => by simp [not_isBreak_of_mem hc],
      takeWhile_of_ends hc, List.append_nil]
  have same : (numberText x).toList = (numberText y).toList := by
    rw [← front x ha, h, front y hb]
  rw [same] at h
  exact ⟨same, List.append_cancel_left h⟩

/-! ## Trees -/

namespace Tree

theorem text_pending_append (op : Op) (l : Tree) (cs : List Char) :
    (pending op l).text.toList ++ cs =
      '(' :: (l.text.toList ++ ' ' :: op.symbol :: ' ' :: '?' :: ')' :: cs) := by
  simp [toList_text_pending]

theorem text_binary_append (op : Op) (l r : Tree) (cs : List Char) :
    (binary op l r).text.toList ++ cs =
      '(' :: (l.text.toList ++ ' ' :: op.symbol :: ' ' :: (r.text.toList ++ ')' :: cs)) := by
  simp [toList_text_binary]

/-- A number does not start as a group or a missing operand does. -/
theorem number_append_ne (x : Float) {c : Char} (hc : isBreak c = true) (a cs : List Char) :
    (number x).text.toList ++ a ≠ c :: cs := by
  obtain ⟨d, ds, hd⟩ := List.exists_cons_of_ne_nil (numberText_ne_nil x)
  have inner : isBreak d = false := not_isBreak_of_mem (by rw [hd]; exact List.mem_cons_self)
  intro h
  rw [text, hd] at h
  rw [(List.cons.inj h).1, hc] at inner
  cases inner

/-- An operand that is there is not written as one that is missing. -/
theorem text_append_ne_mark (t : Tree) (a cs : List Char) : t.text.toList ++ a ≠ '?' :: cs := by
  cases t with
  | number x => exact number_append_ne x (by decide) a cs
  | pending op l => simp [text_pending_append]
  | binary op l r => simp [text_binary_append]

theorem left_of_group {l m : Tree} {p q : Op} {cs ds : List Char}
    (left : ∀ {a b : List Char}, Ends a → Ends b → l.text.toList ++ a = m.text.toList ++ b →
      l.Alike m ∧ a = b)
    (h : '(' :: (l.text.toList ++ ' ' :: p.symbol :: ' ' :: cs) =
      '(' :: (m.text.toList ++ ' ' :: q.symbol :: ' ' :: ds)) :
    p = q ∧ l.Alike m ∧ cs = ds := by
  obtain ⟨alike, rest⟩ := left (ends_cons (by decide) _) (ends_cons (by decide) _) (List.cons.inj h).2
  simp only [List.cons.injEq, true_and] at rest
  exact ⟨Op.symbol_injective rest.1, alike, rest.2⟩

/-- **A text in front of a break** tells its tree, and where it ends. -/
theorem alike_of_text_append {t u : Tree} {a b : List Char} (ha : Ends a) (hb : Ends b)
    (h : t.text.toList ++ a = u.text.toList ++ b) : t.Alike u ∧ a = b := by
  induction t generalizing u a b with
  | number x =>
    cases u with
    | number y =>
      obtain ⟨same, rest⟩ := number_append_inj ha hb h
      exact ⟨sameNumber_of_numberText same, rest⟩
    | pending q m =>
      rw [toList_text_pending] at h
      exact absurd h (number_append_ne x (by decide) _ _)
    | binary q m s =>
      rw [toList_text_binary] at h
      exact absurd h (number_append_ne x (by decide) _ _)
  | pending p l ih =>
    rw [text_pending_append] at h
    cases u with
    | number y => exact absurd h.symm (number_append_ne y (by decide) _ _)
    | pending q m =>
      rw [text_pending_append] at h
      obtain ⟨op, left, rest⟩ := left_of_group ih h
      exact ⟨⟨op, left⟩, (List.cons.inj (List.cons.inj rest).2).2⟩
    | binary q m s =>
      rw [text_binary_append] at h
      obtain ⟨-, -, rest⟩ := left_of_group ih h
      exact absurd rest.symm (text_append_ne_mark s _ _)
  | binary p l r ihl ihr =>
    rw [text_binary_append] at h
    cases u with
    | number y => exact absurd h.symm (number_append_ne y (by decide) _ _)
    | pending q m =>
      rw [text_pending_append] at h
      obtain ⟨-, -, rest⟩ := left_of_group ihl h
      exact absurd rest (text_append_ne_mark r _ _)
    | binary q m s =>
      rw [text_binary_append] at h
      obtain ⟨op, left, rest⟩ := left_of_group ihl h
      obtain ⟨right, rest⟩ := ihr (ends_cons (by decide) _) (ends_cons (by decide) _) rest
      exact ⟨⟨op, left, right⟩, (List.cons.inj rest).2⟩

theorem text_of_alike {t u : Tree} (h : t.Alike u) : t.text = u.text := by
  induction t generalizing u with
  | number x =>
    cases u with
    | number y => exact numberText_of_sameNumber h
    | pending q m => exact h.elim
    | binary q m s => exact h.elim
  | pending p l ih =>
    cases u with
    | pending q m =>
      obtain ⟨op, left⟩ := h
      rw [text, text, op, ih left]
    | number y => exact h.elim
    | binary q m s => exact h.elim
  | binary p l r ihl ihr =>
    cases u with
    | binary q m s =>
      obtain ⟨op, left, right⟩ := h
      rw [text, text, op, ihl left, ihr right]
    | number y => exact h.elim
    | pending q m => exact h.elim

/-- **Two trees have the same text** exactly if they have one shape, with the same operators, the same
operands missing, and bit by bit the same numbers, where all NaNs count as one. -/
theorem text_eq_iff_alike (t u : Tree) : t.text = u.text ↔ t.Alike u := by
  constructor
  · intro h
    have nothing : Ends [] := fun c hc => by cases hc
    exact (alike_of_text_append nothing nothing (by rw [h])).1
  · exact text_of_alike

example : (number 0.0).text ≠ (number (-0.0)).text := by decide +kernel

end Tree

end Reckoner
