import Reckoner.Proofs.Groups
/-!
# What may stand anywhere

Blanks, and groups that hold no operand, may be put in at any place of a text: between the digits of
a number, between a sign and its number, in any group, at the end. The text means the same. Errors in
front of the place stay where they are, those behind it are further on, and the span of a numeral
with digits on both sides grows.

Results:
* `Stack.feed_invisible`: only the position knows of them.
* `Reader.meaning_insert`: a text with them and without them.
-/
namespace Reckoner

/-- Blanks, and groups without an operand. -/
inductive Invisible : List Char → Prop
  | nil : Invisible []
  | blank {c : Char} {w : List Char} (hc : isBlank c = true) (hw : Invisible w) :
    Invisible (c :: w)
  | group {e : String} {w : List Char} (he : Reader.meaning e = .ok none) (hw : Invisible w) :
    Invisible ('(' :: (e.toList ++ [')']) ++ w)

/-- Where positions get to if `k` characters are put in at `n`. -/
def insertAt (n k p : Nat) : Nat := if p < n then p else p + k

theorem relocates_insertAt (n k : Nat) : Relocates (insertAt n k) n := by
  constructor
  · intro i j h
    unfold insertAt
    split <;> split <;> omega
  · intro i h
    unfold insertAt
    rw [if_neg (by omega), if_neg (by omega), Nat.add_right_comm]

/-! ## What stays where it is -/

namespace Span

theorem relocate_insertAt {s : Span} {n : Nat} (k : Nat) (lt : s.start < s.stop)
    (le : s.stop ≤ n) : s.relocate (insertAt n k) = s := by
  have start : insertAt n k s.start = s.start := if_pos (Nat.lt_of_lt_of_le lt le)
  have pos : 1 ≤ s.stop := Nat.lt_of_le_of_lt (Nat.zero_le _) lt
  have stop : insertAt n k (s.stop - 1) = s.stop - 1 :=
    if_pos (Nat.lt_of_lt_of_le (Nat.sub_one_lt_of_lt lt) le)
  rw [relocate, start, stop, Nat.sub_add_cancel pos]

end Span

theorem ReadError.relocate_insertAt {cs : List Char} {e : ReadError} (h : Blames cs e) (k : Nat) :
    e.relocate (insertAt cs.length k) = e := by
  cases e with
  | unexpected c p =>
    obtain ⟨lt, -⟩ := List.getElem?_eq_some_iff.1 h.1
    rw [relocate, insertAt, if_pos lt]
  | malformed text span =>
    rw [relocate, Span.relocate_insertAt k h.1.start_lt h.1.stop_le]
  | unclosed depth => rfl
  | finished => rfl

namespace Stack

theorem recast_founded {cs : List Char} {fs : List Frame} (h : Founded cs fs) (k : Nat) :
    fs.map (Frame.recast (.moving (insertAt cs.length k))) = fs := by
  induction fs with
  | nil => rfl
  | cons f fs ih =>
    have same : f.recast (.moving (insertAt cs.length k)) = f := by
      obtain ⟨⟨text, span?, negative⟩, root⟩ := f
      cases span? with
      | none => rfl
      | some span =>
        have gathered := h.1.2 span rfl
        have moved := Span.relocate_insertAt k gathered.start_lt gathered.stop_le
        simp only [Frame.recast, Numeral.recast, Recast.moving, id_eq, Option.map_some, moved]
    rw [List.map_cons, same, ih h.2]

/-- A stack that has read a text is moved by its position alone. -/
theorem recast_hasRead {cs : List Char} {m : Stack} (h : HasRead cs m) (k : Nat) :
    m.recast (.moving (insertAt cs.length k)) = { m with position := m.position + k } := by
  have frames := recast_founded h.founded k
  rw [List.map_cons, List.cons.injEq] at frames
  have position : (Recast.moving (insertAt cs.length k)).position m.position = m.position + k := by
    rw [h.position]
    exact if_neg (Nat.lt_irrefl _)
  rw [recast, frames.1, frames.2, position]

/-! ## What is put in -/

theorem step_blank {m : Stack} (hf : m.finished = false) {c : Char} (hc : isBlank c = true) :
    (m.step c).toExcept = .ok { m with position := m.position + 1 } := by
  have ho : c ≠ '(' := by rintro rfl; revert hc; decide
  have hp : c ≠ ')' := by rintro rfl; revert hc; decide
  rw [step_own hf ho fun e => absurd e hp, readOwn, Outcome.toExcept_map, Frame.readChar, if_pos hc]
  rfl

/-- **What is invisible** is known by the position alone. -/
theorem feed_invisible {w : List Char} (h : Invisible w) {m : Stack} (hf : m.finished = false) :
    (feed w m).toExcept = .ok { m with position := m.position + w.length } := by
  induction h generalizing m with
  | nil => rfl
  | @blank c w hc hw ih =>
    rw [feed_cons_of_ok (step_blank hf hc), List.length_cons, Nat.add_comm w.length,
      ← Nat.add_assoc]
    exact ih hf
  | @group e w he hw ih =>
    rw [Reader.meaning_eq] at he
    obtain ⟨n, hn, root⟩ := map_eq_ok_iff.1 he
    have length : ('(' :: (e.toList ++ [')'])).length = e.toList.length + 2 := by simp
    rw [feed_append_of_ok (feed_group hn hf), root, List.length_append, ← Nat.add_assoc, length]
    exact ih hf

theorem readAll_insert {w : List Char} (h : Invisible w) (u v : List Char) :
    (readAll (u ++ (w ++ v)) start).map root =
      ((readAll (u ++ v) start).map root).mapError
        (ReadError.relocate (insertAt u.length w.length)) := by
  cases hu : (feed u start).toExcept with
  | error e =>
    have fails := readAll_append_of_error hu []
    rw [List.append_nil] at fails
    have same := ReadError.relocate_insertAt (blames_of_readAll fails) w.length
    rw [readAll_append_of_error hu, readAll_append_of_error hu]
    exact congrArg Except.error same.symm
  | ok m =>
    -- What `m` holds lies in front of the place, so to read `w` and to move `m` is the same.
    have hr := hasRead_feed hu
    have moved := recast_hasRead hr w.length
    have relocates : Relocates (insertAt u.length w.length) m.position := by
      rw [hr.position]
      exact relocates_insertAt u.length w.length
    rw [readAll_append_of_ok hu, readAll_append_of_ok hu,
      readAll_append_of_ok (feed_invisible h hr.unfinished), ← moved,
      readAll_moving (located_feed located_start rfl hu) hr.unfinished relocates, map_root_recasted,
      funext (ReadError.recast_moving _)]

end Stack

namespace Reader

/-- **Blanks, and groups without an operand, may stand anywhere.** The text means the same, up to
where it is wrong. -/
theorem meaning_insert (u v : String) {w : String} (hw : Invisible w.toList) :
    meaning (u ++ w ++ v) =
      (meaning (u ++ v)).mapError (ReadError.relocate (insertAt u.length w.length)) := by
  have inserted := Stack.readAll_insert hw u.toList v.toList
  rw [meaning_eq, meaning_eq, String.toList_append, String.toList_append, String.toList_append,
    List.append_assoc, inserted, String.length_toList, String.length_toList]

/-- Between the digits of a numeral. -/
theorem meaning_insert_between :
    Invisible "(- )\n".toList ∧
      meaning ("2." ++ "(- )\n" ++ ".5") = .error (.malformed "2..5" ⟨0, 9⟩) := by
  have invisible : Invisible "(- )\n".toList :=
    .group (e := "- ") rfl (.blank (by decide) .nil)
  exact ⟨invisible, meaning_insert "2." ".5" invisible⟩

end Reader

end Reckoner
