import Reckoner.Proofs.Accounts
import Reckoner.Proofs.Hearing
/-!
# What a failing call does to a reader

A call that fails leaves a reader from which reading can go on. What such a call has changed is told
here, and that nothing else has: the numeral that it ends is settled or dropped, a group whose last
numeral is none is lost, and every position moves on.

Results:
* `Frame.readChar_failed`, `Stack.step_failed`: what is left in a frame, and on a stack.
* `Reader.feed_blank_group`: a group without an operand leaves the reader as it was, further on.
* `Reader.damage_of_session`: what is left of a reader, in any session.
-/
namespace Reckoner

/-! ## Frames -/

namespace Frame

/-- What becomes of a frame whose numeral has ended. Its number is placed, and its text, its span
and its sign are used up; without characters there is no number, and a sign keeps waiting. -/
inductive Settles (f : Frame) : Frame → Prop
  | nothing (empty : f.numeral.text = "") : Settles f f
  | number {x : Float} (chars : f.numeral.text ≠ "") (value : f.numeral.value? = some x) :
    Settles f ⟨Numeral.empty, Progress.put f.root (.number x)⟩

/-- What becomes of a frame whose numeral has ended and is none: text, span and sign are gone, and
the tree is as it was. -/
def dropNumeral (f : Frame) : Frame := { f with numeral := Numeral.empty }

theorem settles_settle {f : Frame} (h : f.settle.error? = none) : f.Settles f.settle.state := by
  rcases f.settle_cases with ⟨ht, hs⟩ | ⟨ht, x, hv, hs⟩ | ⟨-, -, hs⟩
  · rw [hs]
    exact .nothing ht
  · rw [hs, place_state]
    exact .number ht hv
  · rw [hs] at h
    cases h

theorem settle_failed {f : Frame} {e : ReadError} (h : f.settle.error? = some e) :
    f.numeral.text ≠ "" ∧ e = f.malformed ∧ f.settle.state = f.dropNumeral := by
  rcases f.settle_cases with ⟨-, hs⟩ | ⟨-, x, -, hs⟩ | ⟨ht, -, hs⟩
  · rw [hs] at h
    cases h
  · rw [hs, place_error?] at h
    cases h
  · rw [hs] at h ⊢
    exact ⟨ht, (Option.some.inj h).symm, rfl⟩

/-- **A character that a frame refuses** has settled the numeral before it, or is the end of a
numeral that is none. -/
theorem readChar_failed {f : Frame} {c : Char} {p : Position} {e : ReadError}
    (h : (f.readChar c p).error? = some e) :
    (e = .unexpected c p ∧ f.Settles (f.readChar c p).state) ∨
      (f.settle.error? = some e ∧ (f.readChar c p).state = f.settle.state) := by
  rcases f.readChar_cases c p with ⟨-, hr⟩ | ⟨-, hr⟩ | ⟨-, -, hr⟩
  · rw [hr] at h
    cases h
  · rw [hr] at h
    cases h
  · rw [hr] at h ⊢
    rcases f.readOperator_cases c p with ⟨-, ho⟩ | ⟨hs, ⟨op, t, -, -, ho⟩ | ⟨-, -, ho⟩ | ho⟩
    · rw [ho] at h ⊢
      exact .inr ⟨h, rfl⟩
    · rw [ho] at h
      cases h
    · rw [ho] at h
      cases h
    · rw [ho] at h ⊢
      cases h
      exact .inl ⟨rfl, settles_settle hs⟩

theorem Settles.located {f g : Frame} (h : f.Settles g) (hl : f.numeral.Located) :
    g.numeral.Located := by
  cases h with
  | nothing => exact hl
  | number => exact Numeral.located_empty

end Frame

/-! ## Stacks -/

namespace Stack

/-- **A character that fails** has changed the frame on the top alone, or uncovered the one
below. -/
theorem step_failed {m : Stack} (hf : m.finished = false) {c : Char} {e : ReadError}
    (h : (m.step c).error? = some e) :
    (e = .unexpected c m.position ∧
      ∃ f, m.top.Settles f ∧
        (m.step c).state = { m with top := f, position := m.position + 1 }) ∨
      (m.top.numeral.text ≠ "" ∧ e = m.top.malformed ∧
        (((c = ')' → m.below = []) ∧ (m.step c).state =
          { m with top := m.top.dropNumeral, position := m.position + 1 }) ∨
        (c = ')' ∧ ∃ f fs, m.below = f :: fs ∧
          (m.step c).state = ⟨f, fs, m.position + 1, m.finished⟩))) := by
  rcases step_cases hf c with ⟨-, hs⟩ | ⟨hc, f, fs, hb, hs⟩ | ⟨-, hc, hs⟩
  · rw [hs] at h
    cases h
  · rw [hs] at h ⊢
    rcases close_cases m f fs with ⟨e', he, hk⟩ | ⟨-, -, hk⟩ | ⟨-, t, -, hk⟩
    · rw [hk] at h ⊢
      cases h
      obtain ⟨ht, hm, -⟩ := Frame.settle_failed he
      exact .inr ⟨ht, hm, .inr ⟨hc, f, fs, hb, rfl⟩⟩
    · rw [hk] at h
      cases h
    · rw [hk] at h
      cases h
  · rw [hs] at h ⊢
    rcases Frame.readChar_failed (f := m.top) (p := m.position) h with ⟨he, settles⟩ | ⟨he, state⟩
    · exact .inl ⟨he, _, settles, rfl⟩
    · obtain ⟨ht, hm, dropped⟩ := Frame.settle_failed he
      refine .inr ⟨ht, hm, .inl ⟨hc, ?_⟩⟩
      rw [readOwn, Outcome.map, state, dropped]

end Stack

/-! ## Readers -/

namespace Reader

/-- The reader with all its positions moved on. -/
def moveOn (k : Nat) : Reader → Reader
  | innermost l => innermost { l with position := l.position + k }
  | enclosing l inner => enclosing { l with position := l.position + k } (inner.moveOn k)

/-- The reader with another frame for the characters to come. -/
def withCurrent (f : Frame) : Reader → Reader
  | innermost l => innermost (l.withFrame f)
  | enclosing l inner => enclosing l (inner.withCurrent f)

/-- The reader without the innermost of its open groups, and all that is in it. -/
def leave : Reader → Reader
  | innermost l => innermost l
  | enclosing l (innermost _) => innermost { l with depth := l.depth - 1 }
  | enclosing l (enclosing k inner) =>
    enclosing { l with depth := l.depth - 1 } (leave (enclosing k inner))

/-- The reader at the end of its text. -/
def ended (r : Reader) : Reader := r.setLevel { r.level with finished := true }

theorem flatten_moveOn (k : Nat) (r : Reader) :
    (r.moveOn k).flatten = { r.flatten with position := r.flatten.position + k } := by
  induction r with
  | innermost l => rfl
  | enclosing l inner ih => rw [moveOn, flatten, ih]; rfl

theorem flatten_withCurrent (f : Frame) (r : Reader) :
    (r.withCurrent f).flatten = { r.flatten with top := f } := by
  induction r with
  | innermost l => rfl
  | enclosing l inner ih => rw [withCurrent, flatten, ih]; rfl

theorem flatten_leave {r : Reader} {f : Frame} {fs : List Frame} (h : r.flatten.below = f :: fs) :
    r.leave.flatten = ⟨f, fs, r.flatten.position, r.flatten.finished⟩ := by
  induction r generalizing fs with
  | innermost l => cases h
  | enclosing l inner ih =>
    cases inner with
    | innermost k =>
      cases h
      rfl
    | enclosing k i =>
      obtain ⟨g, gs, hb⟩ := List.exists_cons_of_ne_nil
        (l := (enclosing k i).flatten.below) (by simp [flatten])
      have whole : (enclosing l (enclosing k i)).flatten.below = g :: (gs ++ [l.frame]) := by
        rw [flatten, hb, List.cons_append]
      rw [whole] at h
      cases h
      have inside := ih hb
      rw [leave, flatten, inside]
      rfl

theorem aligned_moveOn {p : Position} {r : Reader} (k : Nat) (h : r.Aligned p) :
    (r.moveOn k).Aligned (p + k) := by
  have grafted := aligned_graft k none h
  have same : r.graft k none = r.moveOn k := by
    induction r with
    | innermost l => rfl
    | enclosing l inner ih => rw [graft, moveOn, ih h.2.2.2.2 (aligned_graft k none h.2.2.2.2)]
  rwa [same] at grafted

theorem moveOn_moveOn (j k : Nat) (r : Reader) : (r.moveOn j).moveOn k = r.moveOn (j + k) := by
  induction r with
  | innermost l => simp only [moveOn, Nat.add_assoc]
  | enclosing l inner ih => simp only [moveOn, ih, Nat.add_assoc]

theorem level_withCurrent (f : Frame) (r : Reader) :
    (r.withCurrent f).depth = r.depth ∧ (r.withCurrent f).isFinished = r.isFinished := by
  cases r <;> exact ⟨rfl, rfl⟩

theorem aligned_withCurrent {p : Position} {r : Reader} (h : r.Aligned p) {f : Frame}
    (hf : f.numeral.Located) : (r.withCurrent f).Aligned p := by
  induction r with
  | innermost l => exact ⟨h.1, h.2.1, hf⟩
  | enclosing l inner ih =>
    obtain ⟨hd, hp, hn, hu, hi⟩ := h
    obtain ⟨depth, finished⟩ := level_withCurrent f inner
    exact ⟨hd.trans (by rw [depth]), hp, hn, finished.trans hu, ih hi⟩

theorem aligned_leave {p : Position} {r : Reader} (h : r.Aligned p) : r.leave.Aligned p := by
  induction r with
  | innermost l => exact h
  | enclosing l inner ih =>
    obtain ⟨hd, hp, hn, hu, hi⟩ := h
    cases inner with
    | innermost k =>
      have flat : k.depth = 0 := hi.1
      have deep : l.depth = k.depth + 1 := hd
      exact ⟨show l.depth - 1 = 0 by omega, hp, hn⟩
    | enclosing k i =>
      have deep : l.depth = k.depth + 1 := hd
      have deeper : k.depth = i.depth + 1 := hi.1
      have left : (leave (enclosing k i)).depth = k.depth - 1 := by cases i <;> rfl
      have same : (leave (enclosing k i)).isFinished = k.finished := by cases i <;> rfl
      exact ⟨show l.depth - 1 = _ by rw [left]; omega, hp, hn, same.trans hu, ih hi⟩

theorem located_current {p : Position} {r : Reader} (h : r.Aligned p) :
    r.current.numeral.Located := by
  induction r with
  | innermost l => exact h.2.2
  | enclosing l inner ih => exact ih h.2.2.2.2

/-! ## Groups without an operand -/

/-- **A group without an operand** leaves nothing behind but its length. -/
theorem feed_blank_group {heard : List Char} {r : Reader} (ht : r.Tracks heard)
    (hf : r.isFinished = false) {w : String} (hw : meaning w = .ok none) :
    (feed ("(" ++ w ++ ")").toList r).toExcept = .ok (r.moveOn (w.length + 2)) := by
  rw [meaning_eq] at hw
  obtain ⟨n, whole, root⟩ := map_eq_ok_iff.1 hw
  have read := Stack.feed_group whole ((flatten_finished r).trans hf)
  rw [root, ← toList_group, flatten_feed ht, Outcome.toExcept_map] at read
  obtain ⟨s, hs, flat⟩ := map_eq_ok_iff.1 read
  obtain ⟨-, state⟩ := Outcome.toExcept_eq_ok_iff.1 hs
  have aligned := (tracks_feed ("(" ++ w ++ ")").toList ht).1
  rw [state] at aligned
  have moved := aligned_moveOn (w.length + 2) ht.1
  refine hs.trans (congrArg Except.ok (eq_of_flatten aligned moved ?_))
  rw [flat, flatten_moveOn, String.length_toList]
  rfl

/-- In an open group that has closed what it opened, the rest of the reader is as it was before the
group. -/
theorem leave_hear_open {heard : List Char} {r : Reader} (ht : r.Tracks heard)
    (hf : r.isFinished = false) {inside : List Char} (h : Matched inside) :
    (hear ('(' :: inside) r).leave = r.moveOn (inside.length + 1) := by
  have tracks := tracks_hear ('(' :: inside) ht hf
  have unfinished : r.flatten.finished = false := (flatten_finished r).trans hf
  refine eq_of_flatten (aligned_leave tracks.1) (aligned_moveOn (inside.length + 1) ht.1) ?_
  have flat := flatten_hear ('(' :: inside) ht hf
  have below := Stack.below_hear_open unfinished h
  have position := Stack.position_hear ('(' :: inside) unfinished
  have finished := Stack.finished_hear ('(' :: inside) unfinished
  rw [← flat] at below position finished
  rw [flatten_leave below, flatten_moveOn, position, finished, List.length_cons, ← unfinished]

/-- Without its open group the reader is the one that a group without an operand would have left in
its place, and only one character behind. -/
theorem feed_blank_instead {before inside : List Char} (h : Matched inside) {w : String}
    (hw : meaning w = .ok none) (hl : w.length = inside.length) :
    (feed ("(" ++ w ++ ")").toList (hear before start)).toExcept =
      .ok ((hear (before ++ '(' :: inside) start).leave.moveOn 1) := by
  have tracks := tracks_hear before tracks_start rfl
  have unfinished : (hear before start).isFinished = false := isFinished_hear before rfl
  rw [feed_blank_group tracks unfinished hw, hear_append, leave_hear_open tracks unfinished h, hl,
    moveOn_moveOn]

/-! ## Failing calls -/

/-- What a character that fails leaves of a reader `r` which has heard the characters `heard`. -/
inductive Damage (heard : List Char) (r : Reader) (c : Char) : ReadError → Reader → Prop
  /-- A character that is not expected has settled the numeral before it. -/
  | refused {f : Frame} (settled : r.current.Settles f) :
    Damage heard r c (.unexpected c r.level.position) ((r.moveOn 1).withCurrent f)
  /-- A character that ends a malformed numeral, but no group, is lost with that numeral. -/
  | dropped {span : Span} (stays : ¬ (c = ')' ∧ 0 < r.depth)) (chars : r.current.numeral.text ≠ "")
    (pending : r.current.numeral.span? = some span) :
    Damage heard r c (.malformed r.current.numeral.text span)
      ((r.moveOn 1).withCurrent r.current.dropNumeral)
  /-- A group that ends with a malformed numeral is lost, with all that is in it. What is left is
  what any group of its length without an operand would have left in its place. -/
  | lost {span : Span} {before inside : List Char} (closes : c = ')')
    (deep : r.leave.depth + 1 = r.depth) (chars : r.current.numeral.text ≠ "")
    (pending : r.current.numeral.span? = some span) (heard_eq : heard = before ++ '(' :: inside)
    (matched : Matched inside)
    (same : ∀ w, meaning w = .ok none → w.length = inside.length →
      (feed ("(" ++ w ++ ")").toList (hear before start)).toExcept = .ok (r.leave.moveOn 1)) :
    Damage heard r c (.malformed r.current.numeral.text span) (r.leave.moveOn 1)

/-- What the end of a text leaves of a reader `r` if it fails. -/
inductive EndDamage (r : Reader) : ReadError → Reader → Prop
  /-- Open groups stay as they are. -/
  | unclosed (deep : 0 < r.depth) : EndDamage r (.unclosed r.depth) r.ended
  /-- A malformed numeral is dropped. -/
  | dropped {span : Span} (flat : r.depth = 0) (chars : r.current.numeral.text ≠ "")
    (pending : r.current.numeral.span? = some span) :
    EndDamage r (.malformed r.current.numeral.text span)
      (r.ended.withCurrent r.current.dropNumeral)

theorem malformed_of_located {f : Frame} (h : f.numeral.Located) (ht : f.numeral.text ≠ "") :
    ∃ span, f.numeral.span? = some span ∧ f.malformed = .malformed f.numeral.text span := by
  obtain ⟨span, hs⟩ := Option.isSome_iff_exists.1 (h.2 ht)
  exact ⟨span, hs, by rw [Frame.malformed, hs, Option.getD_some]⟩

theorem step_state_eq {heard : List Char} {r s : Reader} (ht : r.Tracks heard)
    (hf : r.isFinished = false) {c : Char} {p : Position} (hs : s.Aligned p)
    (h : (r.flatten.step c).state = s.flatten) : (r.step c).state = s := by
  refine eq_of_flatten (tracks_step ht hf c).1 hs ?_
  rw [← h, flatten_step ht.1]
  rfl

theorem damage_of_error {heard : List Char} {r : Reader} (ht : r.Tracks heard)
    (hh : r = hear heard start) (hf : r.isFinished = false) {c : Char} {e : ReadError}
    (h : (r.step c).error? = some e) : Damage heard r c e (r.step c).state := by
  have unfinished : r.flatten.finished = false := (flatten_finished r).trans hf
  have error : (r.flatten.step c).error? = some e := by rw [flatten_step ht.1]; exact h
  have moved := aligned_moveOn 1 ht.1
  have current := flatten_top_eq_current r
  have located := located_current ht.1
  rcases Stack.step_failed unfinished error with
    ⟨rfl, f, settles, left⟩ | ⟨chars, rfl, ⟨stays, left⟩ | ⟨rfl, f, fs, below, left⟩⟩
  · rw [current] at settles
    have state : (r.step c).state = (r.moveOn 1).withCurrent f := by
      refine step_state_eq ht hf (aligned_withCurrent moved (settles.located located)) ?_
      rw [left, flatten_withCurrent, flatten_moveOn]
    rw [state, flatten_position]
    exact .refused settles
  · rw [current] at chars ⊢
    obtain ⟨span, pending, malformed⟩ := malformed_of_located located chars
    have state : (r.step c).state = (r.moveOn 1).withCurrent r.current.dropNumeral := by
      refine step_state_eq ht hf (aligned_withCurrent moved Numeral.located_empty) ?_
      rw [left, flatten_withCurrent, flatten_moveOn, current]
    rw [state, malformed]
    refine .dropped ?_ chars pending
    rintro ⟨hc, deep⟩
    have length : r.flatten.below.length = r.depth := flatten_depth ht.1
    rw [stays hc] at length
    exact absurd length.symm (Nat.ne_of_gt deep)
  · rw [current] at chars ⊢
    obtain ⟨span, pending, malformed⟩ := malformed_of_located located chars
    have state : (r.step ')').state = r.leave.moveOn 1 := by
      refine step_state_eq ht hf (aligned_moveOn 1 (aligned_leave ht.1)) ?_
      rw [left, flatten_moveOn, flatten_leave below]
    have length : fs.length + 1 = r.depth := by
      rw [← flatten_depth ht.1, Stack.depth, below, List.length_cons]
    have deep : r.leave.depth + 1 = r.depth := by
      rw [← flatten_depth (aligned_leave ht.1), flatten_leave below]
      exact length
    have opened : 0 < openGroups heard := by
      rw [← ht.2, ← length]
      exact Nat.succ_pos _
    obtain ⟨before, inside, split, matched, -⟩ := exists_open_group opened
    rw [state, malformed]
    refine .lost rfl deep chars pending split matched ?_
    intro w hw hl
    rw [feed_blank_instead matched hw hl, ← split, ← hh]

theorem endDamage_of_error {p : Position} {r : Reader} (ha : r.Aligned p)
    (hf : r.isFinished = false) {e : ReadError} (h : r.finish.error? = some e) :
    EndDamage r e r.finish.state := by
  have hf' : r.level.finished = false := hf
  by_cases deep : 0 < r.depth
  · have open_ : r.finish = .failed r.ended (.unclosed r.depth) := by
      rw [finish, hf', if_neg Bool.false_ne_true]
      exact if_pos deep
    rw [open_] at h ⊢
    cases h
    exact .unclosed deep
  · have flat : r.depth = 0 := Nat.eq_zero_of_not_pos deep
    rw [finish_eq_settle hf flat] at h ⊢
    cases r with
    | enclosing l inner =>
      have : l.depth = inner.depth + 1 := ha.1
      have : l.depth = 0 := flat
      omega
    | innermost l =>
      obtain ⟨chars, rfl, dropped⟩ := Frame.settle_failed (f := l.frame) h
      obtain ⟨span, pending, malformed⟩ := malformed_of_located ha.2.2 chars
      have state : (l.frame.settle.map fun f =>
          (innermost l).setLevel { l with frame := f, finished := true }).state =
          (innermost l).ended.withCurrent l.frame.dropNumeral := by
        rw [Outcome.map, dropped]
        rfl
      rw [show (innermost l).level = l from rfl, state, malformed]
      exact .dropped flat chars pending

/-- **The damage of a failing call is contained**, in any session that has not come to its end. -/
theorem damage_of_session (calls : List Call) {r : Reader}
    (hr : (Call.session perform calls start).2 = r) (hf : r.isFinished = false) :
    (∀ c e, (r.step c).error? = some e → Damage (heard calls start) r c e (r.step c).state) ∧
    (∀ e, r.finish.error? = some e → EndDamage r e r.finish.state) := by
  have tracks := tracks_session calls tracks_start
  have known := session_eq_hear (r := start) calls (by rw [hr]; exact hf)
  rw [List.nil_append, hr] at tracks
  rw [hr] at known
  exact ⟨fun c e h => damage_of_error tracks known hf h,
    fun e h => endDamage_of_error tracks.1 hf h⟩

/-- Behind a call that failed, in a group with a sign and two separators pending. -/
theorem damage_of_session_group :
    let calls : List Call := [.char ')', .feed "7-(-1 (2).."]
    let r := (Call.session perform calls start).2
    r.isFinished = false ∧ (r.step ')').error? = some (.malformed "1.." ⟨5, 12⟩) ∧
      Damage (heard calls start) r ')' (.malformed "1.." ⟨5, 12⟩) (r.step ')').state ∧
      r.finish.error? = some (.unclosed 1) ∧ EndDamage r (.unclosed 1) r.finish.state := by
  intro calls r
  have unfinished : r.isFinished = false := by decide
  have closing : (r.step ')').error? = some (.malformed "1.." ⟨5, 12⟩) := by decide
  have ending : r.finish.error? = some (.unclosed 1) := by decide
  obtain ⟨characters, ends⟩ := damage_of_session calls rfl unfinished
  exact ⟨unfinished, closing, characters ')' _ closing, ending, ends _ ending⟩

end Reader

end Reckoner
