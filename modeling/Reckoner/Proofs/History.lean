import Mathlib.Data.List.Basic
import Mathlib.Data.List.Induction
import Reckoner.Proofs.Frames
/-!
# The pending numeral and its history

What a numeral holds depends only on what was asked of it since it last started anew. It starts anew
at a take that finds text, also if that text is no number; a take that finds none changes nothing,
so a sign that waits goes on waiting.

Results:
* `startsAnew_concat_iff`: a request starts a numeral anew exactly if it is a take that finds text.
* `recent_unique`, `exists_recent`: in every history there is one part that counts, and the numeral
  reflects it.
* `reflects_unique`: what that part tells leaves nothing of the numeral open.
* `reflects_history`: the numeral that a history leaves, and what a take then answers.
-/
namespace Reckoner.Numeral

/-- What may be asked of a numeral. -/
inductive Request where
  | push (c : Char) (p : Position)
  | markNegative
  | take
deriving DecidableEq, Repr

namespace Request

/-- What is left of the numeral; the answer to a take is looked at apart. -/
def handle : Request → Numeral → Numeral
  | push c p, n => n.push c p
  | markNegative, n => n.markNegative
  | take, n => n.take.1

def pushed? : Request → Option (Char × Position)
  | push c p => some (c, p)
  | _ => none

end Request

/-- The numeral that a history leaves. -/
def after (history : List Request) : Numeral := history.foldl (fun n r => r.handle n) empty

/-- The characters that were pushed, with their positions. -/
def pushed (requests : List Request) : List (Char × Position) := requests.filterMap Request.pushed?

def characters (requests : List Request) : List Char := (pushed requests).map Prod.fst

def positions (requests : List Request) : List Position := (pushed requests).map Prod.snd

/-- Nothing was asked yet, or a take was the last and found text. -/
inductive StartsAnew : List Request → Prop
  | start : StartsAnew []
  | taken {history : List Request} (found : (after history).text ≠ "") :
    StartsAnew (history ++ [.take])

/-- The requests since the numeral last started anew: the shortest remainder of the history behind
such a point. -/
structure Recent (history recent : List Request) : Prop where
  since : ∃ before, StartsAnew before ∧ before ++ recent = history
  last : ∀ before later, StartsAnew before → before ++ later = history →
    recent.length ≤ later.length

/-- The span starts at the first of the positions and ends behind the greatest, whatever their
order. -/
structure Spans (ps : List Position) (span : Span) : Prop where
  start : ps.head? = some span.start
  stop : ∃ p ∈ ps, (∀ q ∈ ps, q ≤ p) ∧ span.stop = p + 1

/-- The numeral holds what the requests tell: their characters, a sign if one was asked for, and a
span, if there are characters, over their positions. -/
structure Reflects (recent : List Request) (n : Numeral) : Prop where
  text : n.text.toList = characters recent
  negative : n.negative = true ↔ .markNegative ∈ recent
  located : n.Located
  spans : ∀ span, n.span? = some span → Spans (positions recent) span

/-- What a take answers behind a history, and what it leaves. -/
structure Answers (history : List Request) : Prop where
  /-- Any answer but none starts the numeral anew, also a failure. -/
  startsAnew_iff : StartsAnew (history ++ [.take]) ↔ (after history).take.2 ≠ .ok none
  anew : StartsAnew (history ++ [.take]) → after (history ++ [.take]) = empty
  idle : ¬ StartsAnew (history ++ [.take]) → after (history ++ [.take]) = after history
  /-- A failure reports the text and the span that the numeral had. -/
  malformed : ∀ e, (after history).take.2 = .error e →
    ∃ span, (after history).span? = some span ∧ e = .malformed (after history).text span

/-! ## One request more -/

theorem after_concat (history : List Request) (r : Request) :
    after (history ++ [r]) = r.handle (after history) :=
  List.foldl_concat _ _ _ _

theorem pushed_push (requests : List Request) (c : Char) (p : Position) :
    pushed (requests ++ [.push c p]) = pushed requests ++ [(c, p)] :=
  List.filterMap_append

theorem pushed_concat {r : Request} (h : r.pushed? = none) (requests : List Request) :
    pushed (requests ++ [r]) = pushed requests := by
  rw [pushed, List.filterMap_append, List.filterMap_cons_none h, List.filterMap_nil, List.append_nil]
  rfl

theorem characters_push (requests : List Request) (c : Char) (p : Position) :
    characters (requests ++ [.push c p]) = characters requests ++ [c] := by
  rw [characters, pushed_push, List.map_append]
  rfl

theorem positions_push (requests : List Request) (c : Char) (p : Position) :
    positions (requests ++ [.push c p]) = positions requests ++ [p] := by
  rw [positions, pushed_push, List.map_append]
  rfl

/-- Only a take that finds text starts the numeral anew. -/
theorem startsAnew_concat_iff {history : List Request} {r : Request} :
    StartsAnew (history ++ [r]) ↔ r = .take ∧ (after history).text ≠ "" := by
  constructor
  · intro h
    generalize whole : history ++ [r] = requests at h
    cases h with
    | start => exact absurd whole (by simp)
    | taken found =>
      obtain ⟨rfl, same⟩ := List.append_inj' whole rfl
      exact ⟨List.singleton_inj.1 same, found⟩
  · rintro ⟨rfl, found⟩
    exact .taken found

/-! ## The part of a history that counts -/

theorem recent_of_startsAnew {history : List Request} (h : StartsAnew history) :
    Recent history [] :=
  ⟨⟨history, h, List.append_nil _⟩, fun _ _ _ _ => Nat.zero_le _⟩

theorem recent_concat {history recent : List Request} (h : Recent history recent) {r : Request}
    (goes_on : ¬ StartsAnew (history ++ [r])) : Recent (history ++ [r]) (recent ++ [r]) := by
  constructor
  · obtain ⟨before, anew, rfl⟩ := h.since
    exact ⟨before, anew, (List.append_assoc _ _ _).symm⟩
  · intro before later anew whole
    rcases List.eq_nil_or_concat' later with rfl | ⟨earlier, s, rfl⟩
    · -- Then the numeral would start anew right behind the new request.
      rw [List.append_nil] at whole
      exact absurd (whole ▸ anew) goes_on
    · rw [← List.append_assoc] at whole
      have shorter := h.last before earlier anew (List.append_inj' whole rfl).1
      simpa using shorter

/-- There is but one part of a history that counts. -/
theorem recent_unique {history recent other : List Request} (h : Recent history recent)
    (ho : Recent history other) : recent = other := by
  obtain ⟨before, anew, whole⟩ := h.since
  obtain ⟨before', anew', whole'⟩ := ho.since
  have same : recent.length = other.length :=
    Nat.le_antisymm (h.last _ _ anew' whole') (ho.last _ _ anew whole)
  exact (List.append_inj' (whole.trans whole'.symm) same).2

/-! ## What the numeral holds -/

theorem spans_single (p : Position) : Spans [p] (Span.single p) :=
  ⟨rfl, p, List.mem_singleton_self p, by simp, rfl⟩

/-- The start stays, and the end moves only behind a greater position. -/
theorem spans_extendTo {ps : List Position} {span : Span} (h : Spans ps span) (p : Position) :
    Spans (ps ++ [p]) (span.extendTo p) := by
  obtain ⟨start, q, mem, greatest, stop⟩ := h
  refine ⟨?_, max q p, ?_, ?_, ?_⟩
  · rw [List.head?_append, start]
    rfl
  · rcases Nat.le_total q p with le | le
    · simp [Nat.max_eq_right le]
    · simp [Nat.max_eq_left le, mem]
  · intro x hx
    rcases List.mem_append.1 hx with hx | hx
    · exact Nat.le_trans (greatest x hx) (Nat.le_max_left q p)
    · rw [List.mem_singleton.1 hx]
      exact Nat.le_max_right q p
  · calc (span.extendTo p).stop = max span.stop (p + 1) := rfl
      _ = max (q + 1) (p + 1) := by rw [stop]
      _ = max q p + 1 := Nat.add_max_add_right q p 1

theorem spans_unique {ps : List Position} {a b : Span} (ha : Spans ps a) (hb : Spans ps b) :
    a = b := by
  obtain ⟨p, mem, greatest, stop⟩ := ha.stop
  obtain ⟨q, mem', greatest', stop'⟩ := hb.stop
  have start : a.start = b.start := Option.some.inj (ha.start.symm.trans hb.start)
  have same : p = q := Nat.le_antisymm (greatest' p mem) (greatest q mem')
  have stops : a.stop = b.stop := by rw [stop, stop', same]
  cases a
  cases b
  cases start
  cases stops
  rfl

theorem reflects_empty : Reflects [] empty where
  text := rfl
  negative := by simp [empty]
  located := located_empty
  spans := by simp [empty]

theorem positions_eq_nil {recent : List Request} {n : Numeral} (h : Reflects recent n)
    (none : n.span? = none) : positions recent = [] := by
  have empty : n.text = "" := by
    by_contra some
    have located := h.located.2 some
    rw [none] at located
    cases located
  have nothing : characters recent = [] := by
    rw [← h.text, empty]
    rfl
  rw [positions, List.map_eq_nil_iff.1 nothing]
  rfl

/-- What is pushed extends the span, or starts one. -/
theorem reflects_push {recent : List Request} {n : Numeral} (h : Reflects recent n) (c : Char)
    (p : Position) : Reflects (recent ++ [.push c p]) (n.push c p) where
  text := by
    rw [characters_push, ← h.text]
    exact String.toList_push c
  negative := by
    have same : Request.markNegative ∈ recent ++ [.push c p] ↔ .markNegative ∈ recent := by simp
    rw [same, ← h.negative, push]
  located := located_push n c p
  spans := by
    intro span hs
    rw [positions_push]
    cases old : n.span? with
    | none =>
      rw [push, old] at hs
      cases hs
      rw [positions_eq_nil h old]
      exact spans_single p
    | some s =>
      rw [push, old] at hs
      cases hs
      exact spans_extendTo (h.spans s old) p

/-- A request that pushes nothing changes the sign at most. -/
theorem reflects_unpushed {recent : List Request} {n : Numeral} (h : Reflects recent n) {r : Request}
    (nothing : r.pushed? = none) {negative : Bool}
    (sign : negative = true ↔ .markNegative ∈ recent ++ [r]) :
    Reflects (recent ++ [r]) { n with negative := negative } where
  text := by
    rw [characters, pushed_concat nothing]
    exact h.text
  negative := sign
  located := h.located
  spans := by
    rw [positions, pushed_concat nothing]
    exact h.spans

theorem reflects_markNegative {recent : List Request} {n : Numeral} (h : Reflects recent n) :
    Reflects (recent ++ [.markNegative]) n.markNegative :=
  reflects_unpushed h rfl (by simp)

/-- A take that finds no text keeps the numeral, with a sign that waits. -/
theorem reflects_idle {recent : List Request} {n : Numeral} (h : Reflects recent n) :
    Reflects (recent ++ [.take]) n := by
  have sign : n.negative = true ↔ .markNegative ∈ recent ++ [.take] := by
    rw [h.negative]
    simp
  exact reflects_unpushed h rfl sign

/-- The requests leave nothing of the numeral open. -/
theorem reflects_unique {recent : List Request} {n m : Numeral} (hn : Reflects recent n)
    (hm : Reflects recent m) : n = m := by
  have text : n.text = m.text := String.toList_inj.1 (hn.text.trans hm.text.symm)
  have negative : n.negative = m.negative :=
    Bool.eq_iff_iff.2 (hn.negative.trans hm.negative.symm)
  have located : n.span?.isSome = m.span?.isSome := by
    have here : n.span?.isSome = true ↔ n.text ≠ "" := hn.located
    have there : m.span?.isSome = true ↔ m.text ≠ "" := hm.located
    rw [Bool.eq_iff_iff, here, there, text]
  have span : n.span? = m.span? := by
    cases old : n.span? with
    | none =>
      rw [old] at located
      exact (Option.isNone_iff_eq_none.1 (Option.isSome_eq_false_iff.1 located.symm)).symm
    | some a =>
      rw [old] at located
      obtain ⟨b, hb⟩ := Option.isSome_iff_exists.1 located.symm
      rw [hb, spans_unique (hn.spans a old) (hm.spans b hb)]
  cases n
  cases m
  cases text
  cases negative
  cases span
  rfl

/-- Every history has a part that counts, and the numeral reflects it. -/
theorem exists_recent (history : List Request) :
    ∃ recent, Recent history recent ∧ Reflects recent (after history) := by
  induction history using List.reverseRecOn with
  | nil => exact ⟨[], recent_of_startsAnew .start, reflects_empty⟩
  | append_singleton history r ih =>
    obtain ⟨recent, counts, reflects⟩ := ih
    rw [after_concat]
    cases r with
    | push c p =>
      have goes_on : ¬ StartsAnew (history ++ [.push c p]) := by simp [startsAnew_concat_iff]
      exact ⟨_, recent_concat counts goes_on, reflects_push reflects c p⟩
    | markNegative =>
      have goes_on : ¬ StartsAnew (history ++ [.markNegative]) := by simp [startsAnew_concat_iff]
      exact ⟨_, recent_concat counts goes_on, reflects_markNegative reflects⟩
    | take =>
      rw [Request.handle]
      by_cases found : (after history).text = ""
      · have goes_on : ¬ StartsAnew (history ++ [.take]) := by simp [startsAnew_concat_iff, found]
        rw [take_empty found]
        exact ⟨_, recent_concat counts goes_on, reflects_idle reflects⟩
      · rw [take_of_text_ne found]
        exact ⟨[], recent_of_startsAnew (.taken found), reflects_empty⟩

/-! ## What a take answers -/

theorem answers_of_located {history : List Request} (h : (after history).Located) :
    Answers history := by
  have anew_iff : StartsAnew (history ++ [.take]) ↔ (after history).text ≠ "" := by
    rw [startsAnew_concat_iff]
    exact and_iff_right rfl
  have left : after (history ++ [.take]) = (after history).take.1 := after_concat history .take
  by_cases found : (after history).text = ""
  · have idle := take_empty found
    refine ⟨?_, ?_, ?_, ?_⟩
    · rw [anew_iff, idle]
      simp [found]
    · exact fun anew => absurd found (anew_iff.1 anew)
    · intro _
      rw [left, idle]
    · intro e he
      rw [idle] at he
      cases he
  · obtain ⟨span, hs, taken⟩ := take_of_located h found
    refine ⟨?_, ?_, ?_, ?_⟩
    · rw [anew_iff, taken]
      cases (after history).value? <;> simp [found]
    · intro _
      rw [left, taken]
    · exact fun goes_on => absurd (anew_iff.2 found) goes_on
    · intro e he
      rw [taken] at he
      cases value : (after history).value? with
      | none =>
        rw [value] at he
        cases he
        exact ⟨span, hs, rfl⟩
      | some x =>
        rw [value] at he
        cases he

/-- **What a numeral holds** is told by the requests since it last started anew, and by nothing
before: their characters, a sign if one was among them, and the span from their first position to
behind their greatest. A take that fails reports just that and starts the numeral anew. -/
theorem reflects_history (history : List Request) :
    ∃ recent, (∀ other, Recent history other ↔ other = recent) ∧
      (∀ n, Reflects recent n ↔ n = after history) ∧ Answers history := by
  obtain ⟨recent, counts, reflects⟩ := exists_recent history
  refine ⟨recent, ?_, ?_, answers_of_located reflects.located⟩
  · intro other
    constructor
    · exact fun h => recent_unique h counts
    · rintro rfl
      exact counts
  · intro n
    constructor
    · exact fun h => reflects_unique h reflects
    · rintro rfl
      exact reflects

example : after [.push '1' 0, .take, .markNegative, .take, .push '.' 7, .push '5' 3] =
    ⟨".5", some ⟨7, 8⟩, true⟩ := by decide +kernel

end Reckoner.Numeral
