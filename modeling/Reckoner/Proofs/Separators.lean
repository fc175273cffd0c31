import Reckoner.Proofs.Culprit
import Reckoner.Proofs.Recast
/-!
# Points and commas

Both separate the fraction of a number, and nothing else tells them apart. So a text may have a
comma in the place of any point, and a point in the place of any comma: it means the same, and an
error in it is the same, but for the text of a malformed numeral, which has the separators that
stand in its place.

Results:
* `Decimal.ofChars?_pointed`: a numeral denotes what it denotes with points for its separators.
* `Recast.faithful_pointing`: a text with points for all separators is the text, written differently.
* `Reader.read_interchanged`: two texts that differ in separators alone.
-/
namespace Reckoner

/-! ## Points for separators -/

/-- Every separator becomes a point. -/
def pointed (c : Char) : Char := if Decimal.isSeparator c then '.' else c

theorem pointed_of_not_isSeparator {c : Char} (h : Decimal.isSeparator c = false) :
    pointed c = c := by
  rw [pointed, h]
  rfl

/-- No other character becomes or stays one that is no separator. -/
theorem pointed_eq_iff {c d : Char} (h : Decimal.isSeparator d = false) :
    pointed c = d ↔ c = d := by
  unfold pointed
  split
  · rename_i hs
    constructor
    · rintro rfl
      exact absurd h (by decide)
    · rintro rfl
      rw [hs] at h
      cases h
  · rfl

theorem isSeparator_pointed (c : Char) :
    Decimal.isSeparator (pointed c) = Decimal.isSeparator c := by
  unfold pointed
  split
  · rename_i h
    rw [h]
    decide
  · rfl

theorem isDigit_pointed (c : Char) : (pointed c).isDigit = c.isDigit := by
  unfold pointed
  split
  · rename_i h
    rw [Bool.eq_false_iff.2 (Decimal.not_isDigit_of_isSeparator h)]
    decide
  · rfl

theorem accepts_pointed (c : Char) : Numeral.accepts (pointed c) = Numeral.accepts c := by
  rw [Numeral.accepts, Numeral.accepts, isDigit_pointed, isSeparator_pointed]

theorem pointed_of_not_accepts {c : Char} (h : Numeral.accepts c = false) : pointed c = c :=
  pointed_of_not_isSeparator (Bool.or_eq_false_iff.1 h).2

theorem map_pointed_of_digits {cs : List Char} (h : ∀ c ∈ cs, c.isDigit = true) :
    cs.map pointed = cs := by
  have same : ∀ c ∈ cs, pointed c = id c := by
    intro c hc
    refine pointed_of_not_isSeparator (Bool.eq_false_iff.2 fun hs => ?_)
    exact Decimal.not_isDigit_of_isSeparator hs (h c hc)
  rw [List.map_congr_left same, List.map_id]

/-- **A numeral** denotes what it denotes with points for its separators. -/
theorem Decimal.ofChars?_pointed (cs : List Char) : ofChars? (cs.map pointed) = ofChars? cs := by
  have digit : Char.isDigit ∘ pointed = Char.isDigit := funext isDigit_pointed
  have whole : (cs.takeWhile Char.isDigit).map pointed = cs.takeWhile Char.isDigit :=
    map_pointed_of_digits (List.all_eq_true.1 List.all_takeWhile)
  unfold ofChars?
  rw [List.takeWhile_map, List.dropWhile_map, digit, whole]
  cases cs.dropWhile Char.isDigit with
  | nil => rfl
  | cons c fraction =>
    simp only [List.map_cons, isSeparator_pointed, List.all_map, digit]
    cases hf : fraction.all Char.isDigit with
    | false => simp
    | true => rw [map_pointed_of_digits (List.all_eq_true.1 hf)]

namespace Recast

/-- The same text with points for its separators. -/
def pointing : Recast := ⟨pointed, String.map pointed, id, id⟩

theorem faithful_pointing (p : Position) : pointing.Faithful p where
  accepts := accepts_pointed
  same := pointed_of_not_accepts
  push t c := by
    apply String.toList_inj.1
    simp [pointing]
  text_eq_empty t := by
    rw [← String.toList_inj, ← String.toList_inj, pointing, String.toList_map]
    simp
  denotes t := by rw [pointing, String.toList_map, Decimal.ofChars?_pointed]
  single _ := rfl
  extendTo _ _ := rfl
  succ _ := rfl

end Recast

/-- **A whole text** with points for its separators. -/
theorem Stack.readAll_pointed (cs : List Char) :
    readAll (cs.map pointed) start = recasted .pointing (recast .pointing) (readAll cs start) := by
  have read := readAll_recast located_start rfl (Recast.faithful_pointing 0) cs
  have same : start.recast .pointing = start := by
    rw [recast, start, Frame.recast_empty (Recast.faithful_pointing 0)]
    rfl
  rwa [same] at read

/-! ## Where the digits stand -/

/-- The characters at these places of a text. -/
def charsAt (cs : List Char) (places : List Nat) : List Char := places.filterMap (cs[·]?)

/-- Where characters of numerals stand in the range as deep as `d`. -/
def digitPlaces (cs : List Char) (d : Int) (start stop : Nat) : List Nat :=
  (cs.zipIdx.filter (isDigitAt cs d start stop)).map Prod.snd

section
variable {cs : List Char} {d : Int} {start stop : Nat}

theorem charsAt_digitPlaces :
    charsAt cs (digitPlaces cs d start stop) = digitsAt cs d start stop := by
  have stands (l : List (Char × Nat)) (h : ∀ x ∈ l, x ∈ cs.zipIdx) :
      charsAt cs (l.map Prod.snd) = l.map Prod.fst := by
    induction l with
    | nil => rfl
    | cons x l ih =>
      have hx : cs[x.2]? = some x.1 := List.mk_mem_zipIdx_iff_getElem?.1 (h x List.mem_cons_self)
      have rest := ih fun y hy => h y (List.mem_cons_of_mem x hy)
      rw [charsAt] at rest ⊢
      simp [hx, rest]
  exact stands _ fun x hx => (List.mem_filter.1 hx).1

theorem ascending_digitPlaces : (digitPlaces cs d start stop).Pairwise (· < ·) := by
  have all : (cs.zipIdx.map Prod.snd).Pairwise (· < ·) := by
    rw [List.zipIdx_map_snd]
    exact List.pairwise_lt_range'
  exact all.sublist (List.filter_sublist.map _)

theorem mem_digitPlaces {i : Nat} (h : i ∈ digitPlaces cs d start stop) : start ≤ i ∧ i < stop := by
  obtain ⟨x, hx, rfl⟩ := List.mem_map.1 h
  have := (List.mem_filter.1 hx).2
  simp only [isDigitAt, Bool.and_eq_true, decide_eq_true_eq] at this
  exact this.1.1

theorem nesting_pointed (cs : List Char) : nesting (cs.map pointed) = nesting cs := by
  have count {c : Char} (hc : Decimal.isSeparator c = false) :
      (cs.map pointed).count c = cs.count c := by
    have same : (· == c) ∘ pointed = (· == c) := by
      funext e
      exact Bool.eq_iff_iff.2 (by simpa using pointed_eq_iff hc)
    rw [List.count_eq_countP, List.countP_map, same, List.count_eq_countP]
  rw [nesting, nesting, count (by decide), count (by decide)]

/-- Digits and separators stand where they stand with points for the separators. -/
theorem digitPlaces_pointed (cs : List Char) :
    digitPlaces (cs.map pointed) d start stop = digitPlaces cs d start stop := by
  have same : isDigitAt (cs.map pointed) d start stop ∘ Prod.map pointed id =
      isDigitAt cs d start stop := by
    funext x
    obtain ⟨c, i⟩ := x
    simp only [isDigitAt, Function.comp_apply, Prod.map_apply, id_eq, accepts_pointed,
      ← List.map_take, nesting_pointed]
  rw [digitPlaces, List.zipIdx_map, List.filter_map, List.map_map, same]
  rfl

end

/-! ## Texts that differ in separators -/

/-- The characters are the same, or both are separators. -/
def Interchangeable (c d : Char) : Prop :=
  c = d ∨ (Decimal.isSeparator c = true ∧ Decimal.isSeparator d = true)

/-- The texts are equally long, and at each place they differ in separators at most. -/
def Interchanged (cs ds : List Char) : Prop :=
  cs.length = ds.length ∧
    ∀ (i : Nat) (c d : Char), cs[i]? = some c → ds[i]? = some d → Interchangeable c d

/-- The same error in texts that differ in separators: what a malformed numeral is spelt with
stands at the same places of both. -/
inductive SameError (cs ds : List Char) : ReadError → ReadError → Prop
  | unexpected (c : Char) (p : Position) : SameError cs ds (.unexpected c p) (.unexpected c p)
  | malformed {text text' : String} {span : Span} (places : List Nat)
    (ascending : places.Pairwise (· < ·)) (inside : ∀ i ∈ places, i ∈ span)
    (spelt : text.toList = charsAt cs places) (spelt' : text'.toList = charsAt ds places) :
    SameError cs ds (.malformed text span) (.malformed text' span)
  | unclosed (depth : Nat) : SameError cs ds (.unclosed depth) (.unclosed depth)

theorem interchangeable_iff {c d : Char} : Interchangeable c d ↔ pointed c = pointed d := by
  constructor
  · rintro (rfl | ⟨hc, hd⟩)
    · rfl
    · rw [pointed, pointed, if_pos hc, if_pos hd]
  · intro h
    by_cases hd : Decimal.isSeparator d = true
    · have hc : Decimal.isSeparator c = true := by
        rw [← isSeparator_pointed, h, isSeparator_pointed, hd]
      exact .inr ⟨hc, hd⟩
    · have hd := Bool.eq_false_iff.2 hd
      rw [pointed_of_not_isSeparator hd] at h
      exact .inl ((pointed_eq_iff hd).1 h)

theorem interchanged_iff {cs ds : List Char} :
    Interchanged cs ds ↔ cs.map pointed = ds.map pointed := by
  constructor
  · rintro ⟨length, same⟩
    refine List.ext_getElem (by simpa using length) ?_
    intro i hi hi'
    rw [List.length_map] at hi hi'
    rw [List.getElem_map, List.getElem_map, ← interchangeable_iff]
    exact same i _ _ (List.getElem?_eq_getElem hi) (List.getElem?_eq_getElem hi')
  · intro h
    refine ⟨by simpa using congrArg List.length h, ?_⟩
    intro i c d hc hd
    have same := congrArg (fun l : List Char => l[i]?) h
    simp only [List.getElem?_map, hc, hd, Option.map_some, Option.some.injEq] at same
    exact interchangeable_iff.2 same

/-- Errors that are one error with points are the same, each about its own text. -/
theorem sameError_of_blames {cs ds : List Char} {e e' : ReadError}
    (points : cs.map pointed = ds.map pointed) (h : Blames cs e) (h' : Blames ds e')
    (same : e.recast .pointing = e'.recast .pointing) : SameError cs ds e e' := by
  cases e with
  | unexpected c p => cases e' <;> cases same; exact .unexpected c p
  | malformed text span =>
    cases e' with
    | malformed text' span' =>
      obtain rfl := (ReadError.malformed.inj same).2
      have depth : nesting (ds.take span.start) = nesting (cs.take span.start) := by
        rw [← nesting_pointed, ← nesting_pointed (cs.take _), List.map_take, List.map_take, points]
      have places (d : Int) :
          digitPlaces ds d span.start span.stop = digitPlaces cs d span.start span.stop := by
        rw [← digitPlaces_pointed, ← digitPlaces_pointed cs, points]
      refine .malformed (digitPlaces cs (nesting (cs.take span.start)) span.start span.stop)
        ascending_digitPlaces (fun i hi => mem_digitPlaces hi) ?_ ?_
      · rw [charsAt_digitPlaces]
        exact h.1.text_eq
      · rw [← places, ← depth, charsAt_digitPlaces]
        exact h'.1.text_eq
    | _ => cases same
  | unclosed depth => cases e' <;> cases same; exact .unclosed depth
  | finished => exact h.elim

namespace Reader

/-- **Points and commas are interchangeable**, each on its own, wherever they stand. Two texts that
differ in nothing else have the same tree, bit by bit, or the same error. -/
theorem read_interchanged {s s' : String} (h : Interchanged s.toList s'.toList) :
    (∃ t, meaning s = .ok t ∧ meaning s' = .ok t) ∨
      ∃ e e', meaning s = .error e ∧ meaning s' = .error e' ∧
        SameError s.toList s'.toList e e' := by
  have points := interchanged_iff.1 h
  have read := Stack.readAll_pointed s.toList
  rw [points, Stack.readAll_pointed] at read
  rw [meaning_eq, meaning_eq]
  cases hs : Stack.readAll s.toList Stack.start with
  | error e =>
    cases hs' : Stack.readAll s'.toList Stack.start with
    | error e' =>
      rw [hs, hs'] at read
      exact .inr ⟨e, e', rfl, rfl, sameError_of_blames points (blames_of_readAll hs)
        (blames_of_readAll hs') (Except.error.inj read).symm⟩
    | ok n' => rw [hs, hs'] at read; cases read
  | ok n =>
    cases hs' : Stack.readAll s'.toList Stack.start with
    | error e' => rw [hs, hs'] at read; cases read
    | ok n' =>
      rw [hs, hs'] at read
      have root : n'.root = n.root := by
        rw [← Stack.root_recast .pointing, ← n.root_recast .pointing, Except.ok.inj read]
      exact .inl ⟨n.root, rfl, congrArg Except.ok root⟩

/-- Separators of one malformed numeral, in a group and on both sides of another. -/
theorem read_interchanged_scattered :
    Interchanged "-(1 .2( ), )".toList "-(1 ,2( ), )".toList ∧
      SameError "-(1 .2( ), )".toList "-(1 ,2( ), )".toList (.malformed "1.2," ⟨2, 10⟩)
        (.malformed "1,2," ⟨2, 10⟩) := by
  have h : Interchanged "-(1 .2( ), )".toList "-(1 ,2( ), )".toList :=
    interchanged_iff.2 (by decide)
  have point : meaning "-(1 .2( ), )" = .error (.malformed "1.2," ⟨2, 10⟩) := rfl
  have comma : meaning "-(1 ,2( ), )" = .error (.malformed "1,2," ⟨2, 10⟩) := rfl
  refine ⟨h, ?_⟩
  rcases read_interchanged h with ⟨t, ht, -⟩ | ⟨e, e', he, he', same⟩
  · rw [point] at ht; cases ht
  · rw [point] at he
    rw [comma] at he'
    cases he
    cases he'
    exact same

end Reader

end Reckoner
