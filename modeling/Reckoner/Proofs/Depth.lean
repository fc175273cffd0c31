import Reckoner.Proofs.Frames
/-!
# Depth in a text

How deep a place in a text is nested in parentheses, and which characters of a range stand as deep
as its start. All of this is counted on the text; no reader is asked.

Results:
* `gathered_concat`, `gathered_push`, `gathered_single`: digits are gathered while a text grows.
* `spelt_of_gathered`: they are spelt by the range from the first of them to the last.
-/
namespace Reckoner

/-- How many more groups a text opens than it closes. -/
def nesting (cs : List Char) : Int := cs.count '(' - cs.count ')'

@[simp] theorem nesting_nil : nesting [] = 0 := rfl

theorem nesting_append (cs ds : List Char) : nesting (cs ++ ds) = nesting cs + nesting ds := by
  simp only [nesting, List.count_append]
  omega

theorem nesting_open (cs : List Char) : nesting (cs ++ ['(']) = nesting cs + 1 := nesting_append _ _

theorem nesting_close (cs : List Char) : nesting (cs ++ [')']) = nesting cs - 1 := nesting_append _ _

theorem nesting_plain (cs : List Char) {c : Char} (ho : c ≠ '(') (hc : c ≠ ')') :
    nesting (cs ++ [c]) = nesting cs := by
  rw [nesting_append]
  simp [nesting, ho, hc]

/-- No place of the text is outside of what its start is in. -/
def NeverBelow (cs : List Char) : Prop := ∀ i, 0 ≤ nesting (cs.take i)

/-- The parentheses of the text match. -/
def Matched (cs : List Char) : Prop := NeverBelow cs ∧ nesting cs = 0

/-! ## Characters at one depth -/

/-- A character of a numeral stands at the place, as deep as `d`. -/
def DigitAt (cs : List Char) (d : Int) (i : Nat) : Prop :=
  nesting (cs.take i) = d ∧ ∃ c, cs[i]? = some c ∧ Numeral.accepts c = true

/-- Whether a character at its position belongs to a numeral, and stands in the range as deep
as `d`. -/
def isDigitAt (cs : List Char) (d : Int) (start stop : Nat) (x : Char × Nat) : Bool :=
  start ≤ x.2 && x.2 < stop && Numeral.accepts x.1 && nesting (cs.take x.2) == d

/-- The characters of numerals which stand in the range as deep as `d`. -/
def digitsAt (cs : List Char) (d : Int) (start stop : Nat) : List Char :=
  (cs.zipIdx.filter (isDigitAt cs d start stop)).map Prod.fst

example : digitsAt "-(1 .2( 7), )".toList 1 2 12 = "1.2,".toList := by decide

/-- The text is made up of the characters of numerals that stand in the range as deep as its start,
from the first of them to the last, with nothing but blanks and groups between them. How deep a
character stands is told by the text in front of it, so a group starts at the depth of the frame
that it is in, and what ends it stands one deeper. -/
structure Spelt (cs : List Char) (text : String) (start stop : Nat) : Prop where
  start_lt : start < stop
  stop_le : stop ≤ cs.length
  /-- The group in which the range starts is not left. -/
  above : ∀ i, start ≤ i → i ≤ stop → nesting (cs.take start) ≤ nesting (cs.take i)
  text_eq : text.toList = digitsAt cs (nesting (cs.take start)) start stop
  starts : DigitAt cs (nesting (cs.take start)) start
  ends : DigitAt cs (nesting (cs.take start)) (stop - 1)
  between : ∀ i c, start ≤ i → i < stop → cs[i]? = some c →
    nesting (cs.take i) = nesting (cs.take start) →
      Numeral.accepts c = true ∨ isBlank c = true ∨ c = '('

/-- The text is spelt in the range at this depth, and nothing behind the range ends it: the group is
not left, and at its depth there are only blanks and further groups. -/
structure Gathered (cs : List Char) (d : Int) (text : String) (start stop : Nat) : Prop where
  start_lt : start < stop
  stop_le : stop ≤ cs.length
  above : ∀ i, start ≤ i → i ≤ cs.length → d ≤ nesting (cs.take i)
  text_eq : text.toList = digitsAt cs d start stop
  starts : DigitAt cs d start
  ends : DigitAt cs d (stop - 1)
  between : ∀ i c, start ≤ i → cs[i]? = some c → nesting (cs.take i) = d →
    (i < stop ∧ Numeral.accepts c = true) ∨ isBlank c = true ∨ c = '('

/-! ## A text that grows -/

variable {cs : List Char} {d : Int} {text : String} {start stop : Nat} {c : Char}

theorem take_append {i : Nat} (h : i ≤ cs.length) (ds : List Char) :
    (cs ++ ds).take i = cs.take i := List.take_append_of_le_length h

theorem neverBelow_concat (h : NeverBelow cs) (hc : 0 ≤ nesting (cs ++ [c])) :
    NeverBelow (cs ++ [c]) := by
  intro i
  by_cases hi : i ≤ cs.length
  · rw [take_append hi]; exact h i
  · rw [List.take_of_length_le (by simp; omega)]; exact hc

theorem digitAt_append {i : Nat} (h : DigitAt cs d i) (ds : List Char) :
    DigitAt (cs ++ ds) d i := by
  obtain ⟨hd, c, hc, ha⟩ := h
  obtain ⟨hi, -⟩ := List.getElem?_eq_some_iff.1 hc
  refine ⟨?_, c, ?_, ha⟩
  · rw [take_append (by omega)]; exact hd
  · rw [List.getElem?_append_left hi]; exact hc

theorem digitAt_concat (hd : nesting cs = d) (hc : Numeral.accepts c = true) :
    DigitAt (cs ++ [c]) d cs.length := by
  refine ⟨?_, c, by simp, hc⟩
  rw [List.take_left]
  exact hd

theorem getElem?_concat {i : Nat} {e : Char} (h : (cs ++ [c])[i]? = some e) :
    cs[i]? = some e ∧ i < cs.length ∨ i = cs.length ∧ e = c := by
  by_cases hi : i < cs.length
  · rw [List.getElem?_append_left hi] at h
    exact .inl ⟨h, hi⟩
  · obtain ⟨hl, -⟩ := List.getElem?_eq_some_iff.1 h
    have : i = cs.length := by
      rw [List.length_append, List.length_singleton] at hl
      omega
    subst this
    simp at h
    exact .inr ⟨rfl, h.symm⟩

/-- What is gathered of a text are characters of numerals. -/
theorem accepts_of_mem_digitsAt (h : c ∈ digitsAt cs d start stop) :
    Numeral.accepts c = true := by
  obtain ⟨⟨e, i⟩, he, rfl⟩ := List.mem_map.1 h
  have := (List.mem_filter.1 he).2
  simp only [isDigitAt, Bool.and_eq_true] at this
  exact this.1.2

theorem isDigitAt_append {i : Nat} (hi : i ≤ cs.length) (ds : List Char) :
    isDigitAt (cs ++ ds) d start stop (c, i) = isDigitAt cs d start stop (c, i) := by
  rw [isDigitAt, isDigitAt, take_append hi]

theorem digitsAt_append (h : stop ≤ cs.length) (ds : List Char) :
    digitsAt (cs ++ ds) d start stop = digitsAt cs d start stop := by
  have behind : (ds.zipIdx (0 + cs.length)).filter (isDigitAt (cs ++ ds) d start stop) = [] := by
    rw [List.filter_eq_nil_iff]
    intro x hx
    have := List.le_snd_of_mem_zipIdx hx
    simp only [isDigitAt, Bool.and_eq_true, decide_eq_true_eq]
    omega
  have before : cs.zipIdx.filter (isDigitAt (cs ++ ds) d start stop) =
      cs.zipIdx.filter (isDigitAt cs d start stop) := by
    apply List.filter_congr
    intro x hx
    have := List.snd_lt_of_mem_zipIdx hx
    exact isDigitAt_append (by omega) ds
  rw [digitsAt, List.zipIdx_append, List.filter_append, behind, before, List.append_nil, digitsAt]

/-- A character of a numeral joins those before it, if there was none behind the range. -/
theorem digitsAt_concat (hd : nesting cs = d) (hc : Numeral.accepts c = true)
    (hs : start ≤ cs.length)
    (none : ∀ i e, stop ≤ i → start ≤ i → cs[i]? = some e → nesting (cs.take i) = d →
      Numeral.accepts e = false) :
    digitsAt (cs ++ [c]) d start (cs.length + 1) = digitsAt cs d start stop ++ [c] := by
  have new : [(c, cs.length)].filter (isDigitAt (cs ++ [c]) d start (cs.length + 1)) =
      [(c, cs.length)] := by
    simp [isDigitAt, hs, hc, hd]
  have before : cs.zipIdx.filter (isDigitAt (cs ++ [c]) d start (cs.length + 1)) =
      cs.zipIdx.filter (isDigitAt cs d start stop) := by
    apply List.filter_congr
    rintro ⟨e, i⟩ hx
    have hi : i < cs.length + 0 := List.snd_lt_of_mem_zipIdx hx
    have he : cs[i]? = some e := List.mk_mem_zipIdx_iff_getElem?.1 hx
    rw [isDigitAt_append (by omega), Bool.eq_iff_iff]
    simp only [isDigitAt, Bool.and_eq_true, decide_eq_true_eq, beq_iff_eq]
    -- The range grows past `stop`, but no character of a numeral stands there at this depth.
    constructor
    · rintro ⟨⟨⟨h1, h2⟩, h3⟩, h4⟩
      refine ⟨⟨⟨h1, Nat.lt_of_not_le fun hn => ?_⟩, h3⟩, h4⟩
      rw [none i e hn h1 he h4] at h3
      cases h3
    · rintro ⟨⟨⟨h1, h2⟩, h3⟩, h4⟩
      exact ⟨⟨⟨h1, by omega⟩, h3⟩, h4⟩
  rw [digitsAt, List.zipIdx_append, List.filter_append, before, Nat.zero_add,
    List.zipIdx_singleton, new, List.map_append, digitsAt]
  rfl

/-- The depth from the start of a range on, with one more character. -/
theorem above_concat (h : ∀ i, start ≤ i → i ≤ cs.length → d ≤ nesting (cs.take i))
    (hc : d ≤ nesting (cs ++ [c])) :
    ∀ i, start ≤ i → i ≤ (cs ++ [c]).length → d ≤ nesting ((cs ++ [c]).take i) := by
  intro i hs hi
  rw [List.length_append, List.length_singleton] at hi
  by_cases hl : i ≤ cs.length
  · rw [take_append hl]; exact h i hs hl
  · rw [List.take_of_length_le (by simp; omega)]; exact hc

/-- Blanks, groups, and all that stands inside groups leave the digits of a frame as they are. -/
theorem gathered_concat (h : Gathered cs d text start stop) (hc : d ≤ nesting (cs ++ [c]))
    (own : nesting cs = d → isBlank c = true ∨ c = '(') :
    Gathered (cs ++ [c]) d text start stop := by
  have lt := h.start_lt
  have le := h.stop_le
  refine ⟨lt, by rw [List.length_append]; omega, above_concat h.above hc, ?_,
    digitAt_append h.starts _, digitAt_append h.ends _, ?_⟩
  · rw [digitsAt_append le]; exact h.text_eq
  · intro i e hi he hz
    rcases getElem?_concat he with ⟨he, hl⟩ | ⟨rfl, rfl⟩
    · rw [take_append (by omega)] at hz
      exact h.between i e hi he hz
    · rw [take_append (by omega), List.take_length] at hz
      exact .inr (own hz)

/-- A further character of the numeral joins the digits. -/
theorem gathered_push (h : Gathered cs d text start stop) (hd : nesting cs = d)
    (hc : Numeral.accepts c = true) (hn : nesting (cs ++ [c]) = nesting cs) :
    Gathered (cs ++ [c]) d (text.push c) start (cs.length + 1) := by
  have lt := h.start_lt
  have le := h.stop_le
  refine ⟨by omega, by simp, above_concat h.above (by omega), ?_, digitAt_append h.starts _,
    digitAt_concat hd hc, ?_⟩
  · rw [String.toList_push, h.text_eq, digitsAt_concat hd hc (by omega)]
    intro i e hs hi he hz
    rcases h.between i e hi he hz with ⟨hl, -⟩ | hb | rfl
    · omega
    · cases ha : Numeral.accepts e with
      | false => rfl
      | true => rw [Numeral.isBlank_of_accepts ha] at hb; cases hb
    · decide
  · intro i e hi he hz
    rcases getElem?_concat he with ⟨he, hl⟩ | ⟨rfl, rfl⟩
    · rw [take_append (by omega)] at hz
      rcases h.between i e hi he hz with ⟨hl, ha⟩ | hb
      · exact .inl ⟨by omega, ha⟩
      · exact .inr hb
    · exact .inl ⟨by omega, hc⟩

/-- The first character of a numeral is gathered. -/
theorem gathered_single (hd : nesting cs = d) (hc : Numeral.accepts c = true)
    (hn : nesting (cs ++ [c]) = nesting cs) :
    Gathered (cs ++ [c]) d ("".push c) cs.length (cs.length + 1) := by
  have digit : DigitAt (cs ++ [c]) d cs.length := digitAt_concat hd hc
  have nothing : digitsAt cs d cs.length cs.length = [] := by
    rw [digitsAt, List.map_eq_nil_iff, List.filter_eq_nil_iff]
    intro x hx
    simp only [isDigitAt, Bool.and_eq_true, decide_eq_true_eq]
    omega
  refine ⟨by omega, by simp, above_concat ?_ (by omega), ?_, digit, digit, ?_⟩
  · intro i hs hi
    rw [show i = cs.length by omega, List.take_length]
    exact Int.le_of_eq hd.symm
  · rw [digitsAt_concat hd hc (Nat.le_refl _), nothing, String.toList_push]
    · rfl
    · intro i e hs hi he
      obtain ⟨hl, -⟩ := List.getElem?_eq_some_iff.1 he
      omega
  · intro i e hi he _
    rcases getElem?_concat he with ⟨-, hl⟩ | ⟨rfl, rfl⟩
    · omega
    · exact .inl ⟨by omega, hc⟩

/-- **Digits that were gathered** are spelt, whatever follows. -/
theorem spelt_of_gathered (h : Gathered cs d text start stop) (ds : List Char) :
    Spelt (cs ++ ds) text start stop := by
  have lt := h.start_lt
  have le := h.stop_le
  have starts := digitAt_append h.starts ds
  have depth : nesting ((cs ++ ds).take start) = d := starts.1
  refine ⟨lt, by rw [List.length_append]; omega, ?_, ?_, ?_, ?_, ?_⟩
  · intro i hi hl
    rw [depth, take_append (by omega)]
    exact h.above i hi (by omega)
  · rw [depth, digitsAt_append le]; exact h.text_eq
  · rw [depth]; exact starts
  · rw [depth]; exact digitAt_append h.ends ds
  · intro i e hi hl he hz
    rw [depth, take_append (by omega)] at hz
    rw [List.getElem?_append_left (by omega)] at he
    rcases h.between i e hi he hz with ⟨-, ha⟩ | hb
    · exact .inl ha
    · exact .inr hb

end Reckoner
