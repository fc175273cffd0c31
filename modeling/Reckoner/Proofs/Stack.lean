import Reckoner.Proofs.Nesting
/-!
# Reading with a stack

The same language read without readers inside readers: a stack of frames, the innermost on top, one
position and one end for all of them. Every character acts on the top of the stack alone.

Results:
* `step_cases`, `close_cases`: all that a stack can do with a character, whether or not it fails.
* `step_onto_eq`: what lies below a stack does not matter, unless it is uncovered.
* `session_keeps`: what every step keeps, whether or not it fails, all sessions keep.
* `flatten_step`, `flatten_finish`: the frames of a chain of readers, put on a stack, change as the
  chain does, event by event and error by error.
* `session_flatten`: so no session can tell a reader from a stack.
-/
namespace Reckoner

/-- The frames of the open groups, innermost first; the last one lies outside all groups. -/
structure Stack where
  top : Frame
  below : List Frame
  position : Position
  finished : Bool
deriving DecidableEq

namespace Stack

def start : Stack := ⟨Frame.empty, [], 0, false⟩

/-- The tree of the frame outside all groups. -/
def root (m : Stack) : Option Tree := (m.below.getLastD m.top).root

/-- The number of groups that are open. -/
def depth (m : Stack) : Nat := m.below.length

/-- Ends the group on the top, which lies on the frames `f` and `fs`, and places its tree in `f`. A
group that cannot be ended is lost. -/
def close (m : Stack) (f : Frame) (fs : List Frame) : Outcome Stack :=
  let ended := m.top.settle
  match ended.error?, ended.state.root with
  | some e, _ => ⟨⟨f, fs, m.position + 1, m.finished⟩, ended.events, some e⟩
  | none, none => ⟨⟨f, fs, m.position + 1, m.finished⟩, ended.events ++ [.closed none], none⟩
  | none, some group =>
    let placed := f.place group
    ⟨⟨placed.state, fs, m.position + 1, m.finished⟩, ended.events ++ .closed group :: placed.events,
      placed.error?⟩

/-- Reads a character in the frame on the top. -/
def readOwn (c : Char) (m : Stack) : Outcome Stack :=
  (m.top.readChar c m.position).map fun f => { m with top := f, position := m.position + 1 }

/-- Reads one character. A parenthesis that closes no group is a character like others. -/
def step (c : Char) (m : Stack) : Outcome Stack :=
  if m.finished then .failed m .finished
  else if c = '(' then
    ⟨⟨Frame.empty, m.top :: m.below, m.position + 1, m.finished⟩, [.opened m.position], none⟩
  else if c = ')' then
    match m.below with
    | f :: fs => m.close f fs
    | [] => m.readOwn c
  else m.readOwn c

/-- Reads characters up to the first that fails. -/
def feed : List Char → Stack → Outcome Stack
  | [], m => .done m
  | c :: cs, m => (m.step c).andThen (feed cs)

/-- Ends the text. -/
def finish (m : Stack) : Outcome Stack :=
  if m.finished then .failed m .finished
  else if 0 < m.below.length then .failed { m with finished := true } (.unclosed m.below.length)
  else m.top.settle.map fun f => { m with top := f, finished := true }

/-- Reads a whole text. -/
def read (text : String) : Outcome Stack := (feed text.toList start).andThen finish

def perform : Call → Stack → Outcome Stack
  | .char c, m => m.step c
  | .feed text, m => feed text.toList m
  | .finish, m => m.finish

/-! ## One character -/

theorem step_of_finished {m : Stack} (h : m.finished = true) (c : Char) :
    m.step c = .failed m .finished :=
  if_pos h

theorem step_open {m : Stack} (h : m.finished = false) :
    m.step '(' =
      ⟨⟨Frame.empty, m.top :: m.below, m.position + 1, m.finished⟩, [.opened m.position], none⟩ := by
  simp [step, h]

theorem step_close {m : Stack} (h : m.finished = false) {f : Frame} {fs : List Frame}
    (hb : m.below = f :: fs) : m.step ')' = m.close f fs := by
  simp [step, h, hb]

theorem step_own {m : Stack} (h : m.finished = false) {c : Char} (ho : c ≠ '(')
    (hc : c = ')' → m.below = []) : m.step c = m.readOwn c := by
  by_cases hp : c = ')'
  · simp [step, h, hp, hc hp]
  · simp [step, h, ho, hp]

/-- **One character** opens a group, closes one, or goes to the frame on the top. -/
theorem step_cases {m : Stack} (hf : m.finished = false) (c : Char) :
    (c = '(' ∧ m.step c =
        ⟨⟨Frame.empty, m.top :: m.below, m.position + 1, false⟩, [.opened m.position], none⟩) ∨
      (c = ')' ∧ ∃ f fs, m.below = f :: fs ∧ m.step c = m.close f fs) ∨
      (c ≠ '(' ∧ (c = ')' → m.below = []) ∧ m.step c = m.readOwn c) := by
  by_cases ho : c = '('
  · subst ho
    have opened := step_open hf
    rw [hf] at opened
    exact .inl ⟨rfl, opened⟩
  · right
    by_cases hc : c = ')' → m.below = []
    · exact .inr ⟨ho, hc, step_own hf ho hc⟩
    · obtain ⟨rfl, hb⟩ : c = ')' ∧ m.below ≠ [] := Classical.not_imp.1 hc
      obtain ⟨f, fs, hb⟩ := List.exists_cons_of_ne_nil hb
      exact .inl ⟨rfl, f, fs, hb, step_close hf hb⟩

/-- **A group that ends** is lost if its numeral is none; otherwise its tree is placed, if there is
one. -/
theorem close_cases (m : Stack) (f : Frame) (fs : List Frame) :
    (∃ e, m.top.settle.error? = some e ∧
      m.close f fs = ⟨⟨f, fs, m.position + 1, m.finished⟩, m.top.settle.events, some e⟩) ∨
      (m.top.settle.error? = none ∧ m.top.settle.state.root = none ∧
        m.close f fs = ⟨⟨f, fs, m.position + 1, m.finished⟩,
          m.top.settle.events ++ [.closed none], none⟩) ∨
      (m.top.settle.error? = none ∧ ∃ t, m.top.settle.state.root = some t ∧
        m.close f fs = ⟨⟨(f.place t).state, fs, m.position + 1, m.finished⟩,
          m.top.settle.events ++ .closed (some t) :: (f.place t).events, none⟩) := by
  unfold close
  rcases m.top.settle with ⟨⟨numeral, _ | t⟩, events, _ | e⟩
  · exact .inr (.inl ⟨rfl, rfl, rfl⟩)
  · exact .inl ⟨e, rfl, rfl⟩
  · refine .inr (.inr ⟨rfl, t, rfl, ?_⟩)
    simp only [Frame.place_error?]
  · exact .inl ⟨e, rfl, rfl⟩

theorem position_step {m : Stack} (hf : m.finished = false) (c : Char) :
    (m.step c).state.position = m.position + 1 := by
  rcases step_cases hf c with ⟨-, h⟩ | ⟨-, f, fs, -, h⟩ | ⟨-, -, h⟩
  · rw [h]
  · rw [h]
    rcases close_cases m f fs with ⟨e, -, h⟩ | ⟨-, -, h⟩ | ⟨-, t, -, h⟩ <;> rw [h]
  · rw [h]; rfl

theorem finished_step {m : Stack} (hf : m.finished = false) (c : Char) :
    (m.step c).state.finished = false := by
  rcases step_cases hf c with ⟨-, h⟩ | ⟨-, f, fs, -, h⟩ | ⟨-, -, h⟩
  · rw [h]
  · rw [h]
    rcases close_cases m f fs with ⟨e, -, h⟩ | ⟨-, -, h⟩ | ⟨-, t, -, h⟩ <;> rw [h] <;> exact hf
  · rw [h]; exact hf

/-- The same stack upon further frames. -/
def onto (fs : List Frame) (m : Stack) : Stack := { m with below := m.below ++ fs }

theorem close_onto (m : Stack) (f : Frame) (gs fs : List Frame) :
    (m.onto fs).close f (gs ++ fs) = (m.close f gs).map (onto fs) := by
  simp only [close, onto, Outcome.map]
  cases m.top.settle.error? with
  | some e => rfl
  | none => cases m.top.settle.state.root <;> rfl

/-- **What lies below a stack** does not matter, unless a parenthesis uncovers it. -/
theorem step_onto_eq {m : Stack} (hf : m.finished = false) {c : Char}
    (hc : ¬ (c = ')' ∧ m.below = [])) (fs : List Frame) :
    (m.onto fs).step c = (m.step c).map (onto fs) := by
  have hf' : (m.onto fs).finished = false := hf
  rcases step_cases hf c with ⟨rfl, hs⟩ | ⟨rfl, g, gs, hb, hs⟩ | ⟨ho, hp, hs⟩
  · rw [hs, step_open hf', hf']; rfl
  · have hb' : (m.onto fs).below = g :: (gs ++ fs) := by rw [onto, hb]; rfl
    rw [hs, step_close hf' hb']
    exact close_onto m g gs fs
  · rw [hs, step_own hf' ho fun e => absurd ⟨e, hp e⟩ hc]; rfl

/-! ## What is left if nothing fails -/

theorem toExcept_feed_append (cs ds : List Char) (m : Stack) :
    (feed (cs ++ ds) m).toExcept = (feed cs m).toExcept.bind fun m => (feed ds m).toExcept := by
  induction cs generalizing m with
  | nil => rfl
  | cons c cs ih =>
    rw [List.cons_append, feed, feed, Outcome.toExcept_andThen, Outcome.toExcept_andThen]
    cases (m.step c).toExcept with
    | error e => rfl
    | ok n => exact ih n

theorem toExcept_feed_cons (c : Char) (cs : List Char) (m : Stack) :
    (feed (c :: cs) m).toExcept = (m.step c).toExcept.bind fun m => (feed cs m).toExcept := by
  rw [feed, Outcome.toExcept_andThen]

theorem step_plain (f : Frame) (fs : List Frame) (p : Nat) {c : Char} (ho : c ≠ '(')
    (hc : c ≠ ')') : (step c ⟨f, fs, p, false⟩).toExcept =
      (f.readChar c p).toExcept.map fun g => ⟨g, fs, p + 1, false⟩ := by
  rw [step_own rfl ho fun h => absurd h hc, readOwn, Outcome.toExcept_map]

theorem toExcept_close (m : Stack) (f : Frame) (fs : List Frame) :
    (m.close f fs).toExcept = m.top.settle.toExcept.map fun g =>
      ⟨g.root.elim f fun t => (f.place t).state, fs, m.position + 1, m.finished⟩ := by
  simp only [close, Outcome.toExcept]
  cases m.top.settle.error? with
  | some e => rfl
  | none => cases h : m.top.settle.state.root <;> simp [Except.map, h]

theorem finish_start (f : Frame) (p : Nat) :
    (finish ⟨f, [], p, false⟩).toExcept.map root = f.settle.toExcept.map Frame.root := by
  simp only [finish, Bool.false_eq_true, if_false, List.length_nil, Nat.lt_irrefl,
    Outcome.toExcept_map]
  cases f.settle.toExcept <;> rfl

theorem finish_open {m : Stack} (h : m.finished = false) (hb : 0 < m.below.length) :
    m.finish.toExcept = .error (.unclosed m.below.length) := by
  rw [finish, if_neg (by simp [h]), if_pos hb, Outcome.toExcept_failed]

/-! ## What calls keep, whether or not they fail -/

section
variable {P : Stack → Prop}
  (step : ∀ m c, m.finished = false → P m → P (Stack.step c m).state)
  (finish : ∀ m, m.finished = false → P m → P (Stack.finish m).state)

include step in
theorem step_keeps {m : Stack} (h : P m) (c : Char) : P (m.step c).state := by
  cases hf : m.finished with
  | true => rw [step_of_finished hf]; exact h
  | false => exact step m c hf h

include step finish in
theorem perform_keeps {m : Stack} (h : P m) (call : Call) : P (m.perform call).state := by
  cases call with
  | char c => exact step_keeps step h c
  | feed text =>
    show P (feed text.toList m).state
    generalize text.toList = cs
    induction cs generalizing m with
    | nil => exact h
    | cons c cs ih => exact Outcome.andThen_keeps (step_keeps step h c) fun _ => ih
  | finish =>
    cases hf : m.finished with
    | true =>
      have refused : m.perform .finish = .failed m .finished := if_pos hf
      rw [refused]
      exact h
    | false => exact finish m hf h

include step finish in
/-- **What every step keeps, and the end of the text, all sessions keep**, whether or not their
calls fail. -/
theorem session_keeps (calls : List Call) {m : Stack} (h : P m) :
    P (Call.session perform calls m).2 := by
  induction calls generalizing m with
  | nil => exact h
  | cons call calls ih => exact ih (perform_keeps step finish h call)

end

end Stack

namespace Reader
open Stack (onto)

/-- The frames of the chain, with the position and the end of its outermost reader. -/
def flatten : Reader → Stack
  | innermost l => ⟨l.frame, [], l.position, l.finished⟩
  | enclosing l inner =>
    ⟨inner.flatten.top, inner.flatten.below ++ [l.frame], l.position, l.finished⟩

theorem flatten_start : start.flatten = Stack.start := rfl

theorem flatten_position (r : Reader) : r.flatten.position = r.level.position := by
  cases r <;> rfl

theorem flatten_finished (r : Reader) : r.flatten.finished = r.isFinished := by
  cases r <;> rfl

theorem flatten_root (r : Reader) : r.flatten.root = r.root := by
  cases r with
  | innermost l => rfl
  | enclosing l inner => simp [flatten, Stack.root, root, level]

/-- The stack has the frames of all readers of the chain, the innermost on top. -/
theorem frames_flatten (r : Reader) :
    r.flatten.top :: r.flatten.below = (r.chain.map fun q => q.level.frame).reverse := by
  induction r with
  | innermost l => rfl
  | enclosing l inner ih =>
    rw [flatten, ← List.cons_append, ih, chain, List.map_cons, List.reverse_cons]
    rfl

theorem flatten_depth {p : Position} {r : Reader} (ha : r.Aligned p) :
    r.flatten.depth = r.depth := by
  induction r with
  | innermost l => exact ha.1.symm
  | enclosing l inner ih =>
    have := ih ha.2.2.2.2
    simp only [Stack.depth, flatten, List.length_append, List.length_singleton] at this ⊢
    rw [this]; exact ha.1.symm

theorem flatten_enclosing {p : Position} {l : Level} {inner : Reader}
    (ha : (enclosing l inner).Aligned p) (h : l.finished = false) :
    (enclosing l inner).flatten = inner.flatten.onto [l.frame] := by
  obtain ⟨-, hp, -, hf, hi⟩ := ha
  have hpos := (flatten_position inner).trans (position_of_aligned hi)
  have hfin := (flatten_finished inner).trans hf
  rw [flatten, onto, h, hp, ← hpos, ← hfin]

/-- The group that closes the chain to a single reader is the one on the top of the stack. -/
theorem flatten_closeGroup (l k : Level) (hk : k.finished = false) (hd : k.depth = 0) :
    (closeGroup { l.advance with depth := 0 } (innermost k)).map flatten =
      (enclosing l (innermost k)).flatten.close l.frame [] := by
  have he : (innermost k).finish =
      k.frame.settle.map fun f => innermost { k with frame := f, finished := true } :=
    finish_eq_settle hk hd
  simp only [closeGroup, Stack.close, he, Outcome.map, root, level, flatten]
  cases k.frame.settle.error? with
  | some e => rfl
  | none => cases k.frame.settle.state.root <;> rfl

theorem flatten_step_innermost {l : Level} (h : l.finished = false) (c : Char) :
    (innermost l).flatten.step c = ((innermost l).step c).map flatten := by
  have h' : (innermost l).flatten.finished = false := h
  rcases step_innermost l h c with ⟨rfl, hs⟩ | ⟨ho, hs⟩
  · rw [hs, Stack.step_open h']; rfl
  · rw [hs, Stack.step_own h' ho fun _ => rfl]; rfl

theorem flatten_step_unfinished {p : Position} {r : Reader} (ha : r.Aligned p)
    (hf : r.isFinished = false) (c : Char) : r.flatten.step c = (r.step c).map flatten := by
  induction r with
  | innermost l => exact flatten_step_innermost hf c
  | enclosing l inner ih =>
    have ⟨hd, _, _, hfi, hi⟩ := ha
    rcases step_enclosing l hf inner c with ⟨rfl, hd1, hs⟩ | ⟨hc, hs⟩
    · rw [hs]
      cases inner with
      | innermost k => rw [flatten_closeGroup l k hfi hi.1]; exact Stack.step_close hf rfl
      | enclosing k i =>
        have : l.depth = k.depth + 1 := hd
        have := hi.1
        omega
    · have next := aligned_step ha hf c
      have uncovered : ¬ (c = ')' ∧ inner.flatten.below = []) := by
        rintro ⟨hp, hb⟩
        have := flatten_depth hi
        rw [Stack.depth, hb] at this
        exact hc ⟨hp, by rw [hd, ← this]; rfl⟩
      rw [hs] at next ⊢
      rw [flatten_enclosing ha hf,
        Stack.step_onto_eq ((flatten_finished inner).trans hfi) uncovered, ih hi hfi]
      exact congrArg (Outcome.mk · _ _) (flatten_enclosing next hf).symm

/-- **One character** does to the stack what it does to the chain. -/
theorem flatten_step {p : Position} {r : Reader} (ha : r.Aligned p) (c : Char) :
    r.flatten.step c = (r.step c).map flatten := by
  cases hf : r.isFinished with
  | true =>
    rw [step_of_finished hf, Stack.step_of_finished ((flatten_finished r).trans hf)]; rfl
  | false => exact flatten_step_unfinished ha hf c

/-! ## Calls -/

theorem flatten_feed {heard : List Char} {r : Reader} (ht : r.Tracks heard) (cs : List Char) :
    Stack.feed cs r.flatten = (feed cs r).map flatten := by
  induction cs generalizing heard r with
  | nil => rfl
  | cons c cs ih =>
    rw [Stack.feed, feed, flatten_step ht.1]
    cases hf : r.isFinished with
    | true => rw [step_of_finished hf]; rfl
    | false => exact Outcome.map_andThen (ih (tracks_step ht hf c))

theorem flatten_finish {p : Position} {r : Reader} (ha : r.Aligned p) :
    r.flatten.finish = r.finish.map flatten := by
  cases hf : r.isFinished with
  | true =>
    rw [finish_of_finished hf]
    exact if_pos ((flatten_finished r).trans hf)
  | false =>
    have hf' : r.level.finished = false := hf
    have hd : r.flatten.below.length = r.level.depth := flatten_depth ha
    simp only [Stack.finish, finish, flatten_finished, hf, hf', hd, if_false, Bool.false_eq_true]
    cases r with
    | innermost l =>
      have hd0 : l.depth = 0 := ha.1
      simp only [level, hd0, Nat.lt_irrefl, if_false]
      rfl
    | enclosing l inner =>
      have pos : 0 < l.depth := by
        have := ha.1
        omega
      simp only [level, pos, if_true]
      rfl

theorem flatten_read (text : String) : Stack.read text = (read text).map flatten := by
  rw [Stack.read, read, ← flatten_start, flatten_feed tracks_start]
  exact Outcome.map_andThen (flatten_finish (tracks_feed text.toList tracks_start).1)

/-- A reader and a stack make the same of a text. -/
theorem toExcept_read (text : String) :
    (read text).toExcept.map root = (Stack.read text).toExcept.map Stack.root := by
  rw [flatten_read, Outcome.toExcept_map]
  cases (read text).toExcept with
  | error e => rfl
  | ok r => exact congrArg Except.ok (flatten_root r).symm

theorem flatten_perform {heard : List Char} {r : Reader} (ht : r.Tracks heard) (call : Call) :
    r.flatten.perform call = (r.perform call).map flatten := by
  cases call with
  | char c => exact flatten_step ht.1 c
  | feed text => exact flatten_feed ht text.toList
  | finish => exact flatten_finish ht.1

/-- **No session can tell a reader from a stack.** Every call reports the same, and what is left is
the same to every later call and to everything that can be asked of it. -/
theorem session_flatten (calls : List Call) :
    let reader := Call.session Reader.perform calls start
    let stack := Call.session Stack.perform calls Stack.start
    stack.1 = reader.1 ∧ stack.2 = reader.2.flatten ∧
      stack.2.root = reader.2.root ∧ stack.2.depth = reader.2.depth ∧
      stack.2.finished = reader.2.isFinished ∧ stack.2.position = reader.2.level.position := by
  have sim := @Call.session_map _ _ (fun r : Reader => ∃ cs, r.Tracks cs) Reader.perform
    (fun call m => m.perform call) flatten
    (fun call r ⟨cs, ht⟩ => ⟨_, tracks_perform call ht⟩)
    (fun call r ⟨cs, ht⟩ => flatten_perform ht call) calls start ⟨[], tracks_start⟩
  have ht := tracks_session calls tracks_start
  simp only
  rw [← flatten_start, show Call.session Stack.perform calls start.flatten = _ from sim]
  exact ⟨rfl, rfl, flatten_root _, flatten_depth ht.1, flatten_finished _, flatten_position _⟩

end Reader

end Reckoner
