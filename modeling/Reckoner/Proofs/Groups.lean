import Reckoner.Proofs.BatchReader
import Reckoner.Proofs.Culprit
import Reckoner.Proofs.Relocation
/-!
# A group is read as a text of its own

Between two parentheses everything is read as if the text started there. What becomes of it is
placed as one operand in the frame around it, and an error in it is reported at its place in the
whole text.

Results:
* `Stack.feed_group`, `Stack.feed_group_error`: a group on any stack.
* `Reader.eq_of_flatten`: a chain of readers is known by its stack.
* `Reader.feed_group_session`: a group in any session.
-/
namespace Reckoner

/-! ## Errors -/

namespace ReadError

/-- The same error in a text that starts `k` characters later. -/
def shift (k : Nat) : ReadError → ReadError
  | unexpected c p => unexpected c (p + k)
  | malformed text span => malformed text ⟨span.start + k, span.stop + k⟩
  | unclosed depth => unclosed depth
  | finished => finished

/-- The error says something about the characters of a text, and nothing about groups that are
opened and closed in it. -/
def IsInner : ReadError → Prop
  | unexpected c _ => c ≠ ')'
  | malformed _ _ => True
  | unclosed _ => False
  | finished => False

theorem IsInner.relocate_ne {e : ReadError} (h : e.IsInner) (φ : Nat → Nat) (p : Position) :
    e.relocate φ ≠ .unexpected ')' p := by
  intro he
  cases e with
  | unexpected c q =>
    cases he
    exact h rfl
  | malformed text span => cases he
  | unclosed depth => cases he
  | finished => cases he

theorem relocate_add {cs : List Char} {e : ReadError} (h : Blames cs e) (k : Nat) :
    e.relocate (· + k) = e.shift k := by
  cases e with
  | unexpected c p => rfl
  | malformed text span =>
    have lt : span.start < span.stop := h.1.start_lt
    have stop : span.stop - 1 + k + 1 = span.stop + k := by
      have pos : 1 ≤ span.stop := Nat.lt_of_le_of_lt (Nat.zero_le _) lt
      rw [Nat.add_right_comm, Nat.sub_add_cancel pos]
    simp only [relocate, shift, Span.relocate, stop]
  | unclosed depth => rfl
  | finished => rfl

end ReadError

/-! ## Stacks -/

namespace Stack

/-- No parenthesis is read that closes nothing. -/
theorem covered_of_step_ok {m n : Stack} (hf : m.finished = false) {c : Char}
    (h : (m.step c).toExcept = .ok n) : ¬ (c = ')' ∧ m.below = []) := by
  rintro ⟨rfl, hb⟩
  rcases step_ok hf h with ⟨hc, -⟩ | ⟨-, f, fs, -, hb', -⟩ | ⟨-, hc, -⟩
  · cases hc
  · rw [hb] at hb'; cases hb'
  · exact hc rfl

/-- What lies below a stack does not matter to a character that is read. -/
theorem step_onto {m n : Stack} (hf : m.finished = false) {c : Char}
    (h : (m.step c).toExcept = .ok n) (fs : List Frame) :
    ((m.onto fs).step c).toExcept = .ok (n.onto fs) := by
  rw [step_onto_eq hf (covered_of_step_ok hf h), Outcome.toExcept_map, h]
  rfl

theorem feed_onto {m n : Stack} (hf : m.finished = false) {cs : List Char}
    (h : (feed cs m).toExcept = .ok n) (fs : List Frame) :
    (feed cs (m.onto fs)).toExcept = .ok (n.onto fs) := by
  induction cs generalizing m with
  | nil => cases h; rfl
  | cons c cs ih =>
    rw [toExcept_feed_cons] at h
    obtain ⟨k, hs, h⟩ := bind_eq_ok_iff.1 h
    rw [feed_cons_of_ok (step_onto hf hs fs)]
    exact ih (finished_of_step_ok hf hs) h

/-- It does not matter to errors either, unless a parenthesis closes nothing. -/
theorem step_onto_error {m : Stack} (hf : m.finished = false) {c : Char} {e : ReadError}
    (h : (m.step c).toExcept = .error e) (he : ∀ p, e ≠ .unexpected ')' p) (fs : List Frame) :
    ((m.onto fs).step c).toExcept = .error e := by
  by_cases hc : c = ')' ∧ m.below = []
  · -- The parenthesis closes nothing in `m`, but may close a frame of `fs`. If it fails for the
    -- numeral that it ends, it does so there too.
    obtain ⟨rfl, hb⟩ := hc
    cases fs with
    | nil =>
      have same : m.onto [] = m := by rw [onto, List.append_nil]
      rw [same]; exact h
    | cons f fs =>
      have hf' : (m.onto (f :: fs)).finished = false := hf
      have hb' : (m.onto (f :: fs)).below = f :: fs := by rw [onto, hb]; rfl
      rcases step_error hf h with ⟨-, below, -⟩ | ⟨-, -, hr⟩
      · exact absurd hb below
      · rcases (Frame.readChar_error hr).2.2 with hs | rfl
        · rw [step_close hf' hb', toExcept_close]
          exact map_eq_error_iff.2 hs
        · exact absurd rfl (he _)
  · rw [step_onto_eq hf hc, Outcome.toExcept_map, h]
    rfl

theorem feed_onto_error {m : Stack} (hf : m.finished = false) {cs : List Char} {e : ReadError}
    (h : (feed cs m).toExcept = .error e) (he : ∀ p, e ≠ .unexpected ')' p) (fs : List Frame) :
    (feed cs (m.onto fs)).toExcept = .error e := by
  obtain ⟨pre, c, post, n, rfl, hp, hc⟩ := feed_error h
  have read := feed_onto hf hp fs
  have fails := step_onto_error (feed_ok hf hp).1 hc he fs
  rw [feed_append_of_ok read, feed_cons_of_error fails]

/-- The stack with its position moved on, and with an operand placed in the frame on the top. -/
def graft (k : Nat) (group : Option Tree) (m : Stack) : Stack :=
  { m with
    top := { m.top with root := group.elim m.top.root (Progress.put m.top.root) }
    position := m.position + k }

/-- The stack `m` while a group is open on it whose content has taken a stack from its start to
`n`. -/
def within (m n : Stack) : Stack :=
  (n.recast (.moving (· + (m.position + 1)))).onto (m.top :: m.below)

theorem step_within {m : Stack} (hf : m.finished = false) :
    (m.step '(').toExcept = .ok (m.within start) := by
  rw [step_open hf, hf]
  simp only [within, onto, recast, Recast.moving, start, List.map_nil, List.nil_append, Nat.zero_add]
  rfl

/-- What can be read as a text can be read in a group. -/
theorem feed_within {x : List Char} {n : Stack} (h : (feed x start).toExcept = .ok n) {m : Stack}
    (hf : m.finished = false) : (feed ('(' :: x) m).toExcept = .ok (m.within n) := by
  have moved := feed_moving located_start rfl (relocates_add (m.position + 1) _) x
  rw [h] at moved
  rw [feed_cons_of_ok (step_within hf)]
  exact feed_onto rfl moved (m.top :: m.below)

/-- The end of a group settles its frame. -/
theorem close_within {m n : Stack} (hf : n.finished = false) (hb : n.below = []) (hl : n.Located) :
    ((m.within n).step ')').toExcept =
      recasted (.moving (· + (m.position + 1)))
        (fun g : Frame => (⟨g.root.elim m.top fun t => (m.top.place t).state, m.below,
          n.position + (m.position + 1) + 1, false⟩ : Stack)) n.top.settle.toExcept := by
  have moves := Recast.faithful_moving (relocates_add (m.position + 1) n.position)
  have settled := Frame.settle_recast moves (hl n.top List.mem_cons_self)
  have top : (m.within n).top = n.top.recast (.moving (· + (m.position + 1))) := rfl
  have below : (m.within n).below = m.top :: m.below := by
    simp only [within, onto, recast, hb, List.map_nil, List.nil_append]
  have unfinished : (m.within n).finished = false := hf
  rw [step_close unfinished below, toExcept_close, top, settled, unfinished]
  cases n.top.settle.toExcept <;> rfl

/-- **A group that is a text which can be read** is placed as one operand. -/
theorem feed_group {x : List Char} {n : Stack} (h : readAll x start = .ok n) {m : Stack}
    (hf : m.finished = false) :
    (feed ('(' :: (x ++ [')'])) m).toExcept = .ok (m.graft (x.length + 2) n.root) := by
  obtain ⟨f, hx, hs, hn⟩ := readAll_ok rfl h
  have root : n.root = n.top.root := by rw [hn]; rfl
  have closed := close_within (m := m) rfl rfl (located_feed located_start rfl hx)
  have position (length p : Nat) : 0 + length + (p + 1) + 1 = p + (length + 2) := by omega
  rw [hs, recasted_ok] at closed
  rw [← List.cons_append, feed_append_of_ok (feed_within hx hf), feed_cons_of_ok closed]
  simp only [root, show start.position = 0 from rfl, position]
  obtain ⟨top, below, p, finished⟩ := m
  cases hf
  cases n.top.root with
  | none => rfl
  | some t =>
    simp only [Option.elim_some, Frame.place_state]
    rfl

/-- **A group that is a text which cannot be read** fails like that text, unless the text fails for
groups that are opened and closed in it. -/
theorem feed_group_error {x : List Char} {e : ReadError} (h : readAll x start = .error e)
    (he : e.IsInner) {m : Stack} (hf : m.finished = false) :
    (feed ('(' :: (x ++ [')'])) m).toExcept = .error (e.relocate (· + (m.position + 1))) := by
  rw [← List.cons_append]
  rcases readAll_error h with hx | ⟨n, hx, hn⟩
  · have moved := feed_moving located_start rfl (relocates_add (m.position + 1) _) x
    rw [hx, recasted_error, ReadError.recast_moving] at moved
    have fails := feed_onto_error rfl moved (he.relocate_ne _) (m.top :: m.below)
    refine feed_append_of_error ?_ _
    rw [feed_cons_of_ok (step_within hf)]
    exact fails
  · have hnf := (feed_ok rfl hx).1
    rcases finish_error hnf hn with ⟨-, rfl⟩ | ⟨hb, hs⟩
    · exact he.elim
    · -- The numeral at the end of the text is settled by the parenthesis instead.
      have closed := close_within (m := m) hnf hb (located_feed located_start rfl hx)
      rw [hs, recasted_error, ReadError.recast_moving] at closed
      rw [feed_append_of_ok (feed_within hx hf), feed_cons_of_error closed]

end Stack

/-! ## Readers -/

namespace Reader

/-- The reader with all positions moved on, and with an operand placed in the innermost group that
is open: as its root, or as the operand that its root misses, or nowhere. -/
def graft (k : Nat) (group : Option Tree) : Reader → Reader
  | innermost l =>
    innermost { l with
      frame := { l.frame with root := group.elim l.frame.root (Progress.put l.frame.root) }
      position := l.position + k }
  | enclosing l inner => enclosing { l with position := l.position + k } (inner.graft k group)

theorem flatten_graft (k : Nat) (group : Option Tree) (r : Reader) :
    (r.graft k group).flatten = r.flatten.graft k group := by
  induction r with
  | innermost l => rfl
  | enclosing l inner ih => simp only [graft, flatten, ih]; rfl

theorem depth_graft (k : Nat) (group : Option Tree) (r : Reader) :
    (r.graft k group).depth = r.depth := by
  cases r <;> rfl

theorem isFinished_graft (k : Nat) (group : Option Tree) (r : Reader) :
    (r.graft k group).isFinished = r.isFinished := by
  cases r <;> rfl

theorem aligned_graft {p : Position} {r : Reader} (k : Nat) (group : Option Tree)
    (h : r.Aligned p) : (r.graft k group).Aligned (p + k) := by
  induction r with
  | innermost l =>
    obtain ⟨hd, rfl, hn⟩ := h
    exact ⟨hd, rfl, hn⟩
  | enclosing l inner ih =>
    obtain ⟨hd, rfl, hn, hf, hi⟩ := h
    refine ⟨?_, rfl, hn, ?_, ih hi⟩
    · rw [depth_graft]; exact hd
    · rw [isFinished_graft]; exact hf

theorem flatten_unfinished {p : Position} {r : Reader} (ha : r.Aligned p)
    (hf : r.isFinished = false) : r.flatten = ⟨r.flatten.top, r.flatten.below, p, false⟩ := by
  have hp := (flatten_position r).trans (position_of_aligned ha)
  have hf := (flatten_finished r).trans hf
  rw [← hp, ← hf]

/-- **A chain of readers is known by its stack.** -/
theorem eq_of_flatten {r s : Reader} {p q : Position} (hr : r.Aligned p) (hs : s.Aligned q)
    (h : r.flatten = s.flatten) : r = s := by
  induction r generalizing s q with
  | innermost l =>
    cases s with
    | innermost k =>
      obtain ⟨frame, depth, position, finished⟩ := l
      obtain ⟨frame', depth', position', finished'⟩ := k
      have hd : depth = 0 := hr.1
      have hd' : depth' = 0 := hs.1
      simp only [flatten, Stack.mk.injEq] at h
      obtain ⟨rfl, -, rfl, rfl⟩ := h
      rw [hd, hd']
    | enclosing k inner => simp [flatten] at h
  | enclosing l inner ih =>
    cases s with
    | innermost k => simp [flatten] at h
    | enclosing k inner' =>
      obtain ⟨hd, hp, -, hf, hi⟩ := hr
      obtain ⟨hd', hp', -, hf', hi'⟩ := hs
      simp only [flatten, Stack.mk.injEq] at h
      obtain ⟨top, below, position, finished⟩ := h
      -- The outermost reader has the last frame.
      obtain ⟨below, frame⟩ := List.append_inj' below rfl
      have same : inner = inner' := by
        refine ih hi hi' ?_
        rw [flatten_unfinished hi hf, flatten_unfinished hi' hf', top, below, ← hp, ← hp', position]
      have frame : l.frame = k.frame := (List.cons.inj frame).1
      have depth : l.depth = k.depth := by rw [hd, hd', same]
      have level : l = k := by
        cases l
        cases k
        cases frame
        cases depth
        cases position
        cases finished
        rfl
      rw [same, level]

theorem toList_group (x : String) : ("(" ++ x ++ ")").toList = '(' :: (x.toList ++ [')']) := by
  simp

/-- **A group is read as a text of its own**, in any session that has not come to its end, whatever
calls failed in it. If the text can be read, its tree is placed in the innermost group that is open,
and nothing else is different. If it cannot, and not for its own parentheses, the error is the one
of the text, further on. -/
theorem feed_group_session (calls : List Call) (x : String) {r : Reader}
    (hr : (Call.session perform calls start).2 = r) (hf : r.isFinished = false) :
    (∀ q, (read x).toExcept = .ok q →
      (feed ("(" ++ x ++ ")").toList r).toExcept = .ok (r.graft (x.length + 2) q.root)) ∧
    (∀ e, (read x).toExcept = .error e → e.IsInner →
      (feed ("(" ++ x ++ ")").toList r).toExcept = .error (e.shift (r.level.position + 1))) := by
  have ht := tracks_session calls tracks_start
  rw [hr] at ht
  have hf' : r.flatten.finished = false := (flatten_finished r).trans hf
  have sim (cs : List Char) :
      (Stack.feed cs r.flatten).toExcept = (feed cs r).toExcept.map flatten := by
    rw [flatten_feed ht, Outcome.toExcept_map]
  have whole := readAll_toList x
  constructor
  · intro q hq
    rw [hq] at whole
    have grafted := Stack.feed_group whole hf'
    rw [← toList_group, sim, String.length_toList, flatten_root, ← flatten_graft] at grafted
    obtain ⟨s, hs, same⟩ := map_eq_ok_iff.1 grafted
    obtain ⟨-, state⟩ := Outcome.toExcept_eq_ok_iff.1 hs
    have aligned := (tracks_feed ("(" ++ x ++ ")").toList ht).1
    rw [state] at aligned
    rw [hs, eq_of_flatten aligned (aligned_graft (x.length + 2) q.root ht.1) same]
  · intro e he hi
    rw [he] at whole
    have fails := Stack.feed_group_error whole hi hf'
    rw [← toList_group, sim, flatten_position,
      ReadError.relocate_add (blames_of_readAll whole)] at fails
    exact map_eq_error_iff.1 fails

/-- Behind calls that failed, in a group, with a sign and a digit pending. -/
theorem feed_group_session_pending :
    let calls : List Call := [.char ')', .feed "-(1 ..", .char '+', .feed "-2,"]
    let r := (Call.session perform calls start).2
    r.isFinished = false ∧
      (feed "(7*)".toList r).toExcept = .ok (r.graft 4 (read "7*").state.root) ∧
      (feed "(( )1 ,,)".toList r).toExcept = .error (.malformed "1,," ⟨15, 19⟩) := by
  intro calls r
  have unfinished : r.isFinished = false := by decide
  have product := (feed_group_session calls "7*" rfl unfinished).1 (read "7*").state
    (Outcome.toExcept_eq_ok_iff.2 ⟨by decide, rfl⟩)
  have digits := (feed_group_session calls "( )1 ,," rfl unfinished).2 (.malformed "1,," ⟨3, 7⟩)
    (Outcome.toExcept_eq_error_iff.2 (by decide)) trivial
  exact ⟨unfinished, product, digits⟩

end Reader

end Reckoner
