import Reckoner.Proofs.Calls
/-!
# The chain of nested readers

A reader inside an open group sits in the reader around it, so the open groups make up a chain.
Every reader of the chain keeps a depth, a position and a numeral of its own, and every character
passes through all of them.

Results:
* `step_innermost`, `step_enclosing`: all that a reader can do with a character.
* `aligned_step`: if each depth is one more than the next, all positions agree, and no inner reader
  is finished, then it is so after any character, also one that fails.
* `tracks_session`: it is so in every session, the position counts the characters heard, and the
  depth counts the parentheses among them.
* `chain_of_session`: what that means for each reader of the chain.
-/
namespace Reckoner.Reader

/-- The reader of the group that is open in this one. -/
def nested? : Reader → Option Reader
  | innermost _ => none
  | enclosing _ inner => some inner

/-- The reader and all that are nested in it, from the outside in. -/
def chain : Reader → List Reader
  | innermost l => [innermost l]
  | enclosing l inner => enclosing l inner :: inner.chain

/-- All levels stand at `p`, each is one group deeper than the next, and none but the outermost may
be finished. -/
def Aligned (p : Position) : Reader → Prop
  | innermost l => l.depth = 0 ∧ l.position = p ∧ l.frame.numeral.Located
  | enclosing l inner =>
    l.depth = inner.depth + 1 ∧ l.position = p ∧ l.frame.numeral.Located ∧
      inner.isFinished = false ∧ inner.Aligned p

/-- The number of open groups behind a character. -/
def depthAfter (c : Char) (d : Nat) : Nat :=
  if c = '(' then d + 1 else if c = ')' then d - 1 else d

theorem openGroups_append (cs : List Char) (c : Char) :
    openGroups (cs ++ [c]) = depthAfter c (openGroups cs) := by
  simp [openGroups, depthAfter]

theorem aligned_startAt (p : Position) : (startAt p).Aligned p :=
  ⟨rfl, rfl, Numeral.located_empty⟩

theorem position_of_aligned {p : Position} {r : Reader} (ha : r.Aligned p) :
    r.level.position = p := by
  cases r with
  | innermost l => exact ha.2.1
  | enclosing l inner => exact ha.2.1

theorem located_of_aligned {p : Position} {r : Reader} (ha : r.Aligned p) :
    r.level.frame.numeral.Located := by
  cases r with
  | innermost l => exact ha.2.2
  | enclosing l inner => exact ha.2.2.1

/-! ## One character -/

theorem step_of_finished {r : Reader} (h : r.isFinished = true) (c : Char) :
    r.step c = .failed r .finished := by
  cases r with
  | innermost l => exact if_pos h
  | enclosing l inner => exact if_pos h

/-- **A reader without an open group** opens one, or reads the character itself. -/
theorem step_innermost (l : Level) (h : l.finished = false) (c : Char) :
    (c = '(' ∧ (innermost l).step c =
        ⟨enclosing { l.advance with depth := 1 } (startAt l.advance.position), [.opened l.position],
          none⟩) ∨
      (c ≠ '(' ∧ (innermost l).step c =
        (l.frame.readChar c l.position).map fun f => innermost (l.advance.withFrame f)) := by
  by_cases ho : c = '('
  · exact .inl ⟨ho, by simp [step, h, ho]⟩
  · exact .inr ⟨ho, by simp [step, h, ho]⟩

/-- **A reader with an open group** ends it at the parenthesis that closes it, and leaves any other
character to the reader inside. -/
theorem step_enclosing (l : Level) (h : l.finished = false) (inner : Reader) (c : Char) :
    (c = ')' ∧ l.depth = 1 ∧
        (enclosing l inner).step c = closeGroup { l.advance with depth := 0 } inner) ∨
      (¬ (c = ')' ∧ l.depth = 1) ∧ (enclosing l inner).step c =
        (inner.step c).map (enclosing { l.advance with depth := depthAfter c l.depth })) := by
  by_cases ho : c = '('
  · exact .inr ⟨by simp [ho], by simp [step, h, ho, depthAfter]⟩
  · by_cases hp : c = ')'
    · by_cases hd : l.depth = 1
      · exact .inl ⟨hp, hd, by simp [step, h, hp, hd]⟩
      · exact .inr ⟨fun hc => hd hc.2, by simp [step, h, hp, hd, depthAfter]⟩
    · refine .inr ⟨fun hc => hp hc.1, ?_⟩
      simp only [step, h, ho, hp, depthAfter, if_false, Bool.false_eq_true]
      rfl

/-- A group that ends touches nothing but the tree of the frame around it. -/
theorem closeGroup_state (l : Level) (inner : Reader) :
    ∃ f : Frame, (closeGroup l inner).state = innermost (l.withFrame f) ∧
      f.numeral = l.frame.numeral := by
  simp only [closeGroup]
  split
  · exact ⟨l.frame, rfl, rfl⟩
  · exact ⟨l.frame, rfl, rfl⟩
  · exact ⟨_, rfl, Frame.place_numeral _ _⟩

theorem isFinished_step {r : Reader} (h : r.isFinished = false) (c : Char) :
    (r.step c).state.isFinished = false := by
  cases r with
  | innermost l => rcases step_innermost l h c with ⟨-, hs⟩ | ⟨-, hs⟩ <;> rw [hs] <;> exact h
  | enclosing l inner =>
    rcases step_enclosing l h inner c with ⟨-, -, hs⟩ | ⟨-, hs⟩
    · obtain ⟨f, closed, -⟩ := closeGroup_state { l.advance with depth := 0 } inner
      rw [hs, closed]; exact h
    · rw [hs]; exact h

theorem depth_step {p : Position} {r : Reader} (ha : r.Aligned p) (h : r.isFinished = false)
    (c : Char) : (r.step c).state.depth = depthAfter c r.depth := by
  cases r with
  | innermost l =>
    have hd : l.depth = 0 := ha.1
    rcases step_innermost l h c with ⟨rfl, hs⟩ | ⟨ho, hs⟩
    · rw [hs]; simp [depth, level, depthAfter, hd]
    · have : depthAfter c l.depth = 0 := by simp [depthAfter, ho, hd]
      rw [hs]
      exact hd.trans this.symm
  | enclosing l inner =>
    rcases step_enclosing l h inner c with ⟨rfl, hd, hs⟩ | ⟨-, hs⟩
    · obtain ⟨f, closed, -⟩ := closeGroup_state { l.advance with depth := 0 } inner
      rw [hs, closed]
      simp [depth, level, depthAfter, hd, Level.withFrame]
    · rw [hs]; rfl

/-- **One character keeps the chain aligned**, one position further on, whether or not it fails. -/
theorem aligned_step {p : Position} {r : Reader} (ha : r.Aligned p) (h : r.isFinished = false)
    (c : Char) : (r.step c).state.Aligned (p + 1) := by
  induction r with
  | innermost l =>
    obtain ⟨hd, rfl, hn⟩ := ha
    rcases step_innermost l h c with ⟨-, hs⟩ | ⟨-, hs⟩
    · rw [hs]; exact ⟨rfl, rfl, hn, rfl, aligned_startAt _⟩
    · rw [hs]; exact ⟨hd, rfl, Frame.located_readChar hn c _⟩
  | enclosing l inner ih =>
    obtain ⟨hd, rfl, hn, hf, hi⟩ := ha
    rcases step_enclosing l h inner c with ⟨-, -, hs⟩ | ⟨hc, hs⟩
    · obtain ⟨f, closed, hfn⟩ := closeGroup_state { l.advance with depth := 0 } inner
      rw [hs, closed]
      exact ⟨rfl, rfl, by rw [show ((Level.withFrame _ f).frame) = f from rfl, hfn]; exact hn⟩
    · rw [hs]
      refine ⟨?_, rfl, hn, isFinished_step hf c, ih hi hf⟩
      show depthAfter c l.depth = (inner.step c).state.depth + 1
      rw [depth_step hi hf c, hd]
      unfold depthAfter
      split
      · rfl
      · split
        · rename_i hp
          have : inner.depth ≠ 0 := fun e => hc ⟨hp, by rw [hd, e]⟩
          omega
        · rfl

/-! ## One call -/

theorem aligned_finish {p : Position} {r : Reader} (ha : r.Aligned p) :
    r.finish.state.Aligned p ∧ r.finish.state.depth = r.depth := by
  unfold finish
  split
  · exact ⟨ha, rfl⟩
  · have settled := Frame.located_settle (located_of_aligned ha)
    cases r with
    | innermost l =>
      obtain ⟨hd, hp, hn⟩ := ha
      simp only [level, hd, Nat.lt_irrefl, if_false]
      exact ⟨⟨rfl, hp, settled⟩, hd.symm⟩
    | enclosing l inner =>
      obtain ⟨hd, hp, hn, hf, hi⟩ := ha
      have pos : 0 < l.depth := by omega
      simp only [level, pos, if_true]
      exact ⟨⟨hd, hp, hn, hf, hi⟩, rfl⟩

theorem finish_of_finished {r : Reader} (h : r.isFinished = true) : r.finish = .failed r .finished :=
  if_pos h

/-- The reader has heard these characters, and no others, before it was finished. -/
def Tracks (cs : List Char) (r : Reader) : Prop := r.Aligned cs.length ∧ r.depth = openGroups cs

theorem tracks_start : start.Tracks [] := ⟨aligned_startAt 0, rfl⟩

theorem tracks_step {cs : List Char} {r : Reader} (ht : r.Tracks cs) (h : r.isFinished = false)
    (c : Char) : (r.step c).state.Tracks (cs ++ [c]) := by
  obtain ⟨ha, hd⟩ := ht
  refine ⟨?_, ?_⟩
  · rw [List.length_append, List.length_singleton]; exact aligned_step ha h c
  · rw [depth_step ha h, hd, openGroups_append]

theorem tracks_feed {heard : List Char} {r : Reader} (cs : List Char) (ht : r.Tracks heard) :
    (feed cs r).state.Tracks (heard ++ heardOf cs r) := by
  induction cs generalizing heard r with
  | nil => simpa [feed, heardOf, Outcome.done] using ht
  | cons c cs ih =>
    cases hf : r.isFinished with
    | true =>
      rw [feed, step_of_finished hf, Outcome.failed_andThen, heardOf, if_pos hf, List.append_nil]
      exact ht
    | false =>
      have next := tracks_step ht hf c
      rw [heardOf, if_neg (by simp [hf]), feed, Outcome.andThen]
      cases he : (r.step c).error? with
      | some e => exact next
      | none => simpa using ih next

theorem feed_singleton (c : Char) (r : Reader) : feed [c] r = r.step c := by
  rw [feed, Outcome.andThen]
  cases h : (r.step c).error? with
  | some e => rfl
  | none => simp [feed, Outcome.done, ← h]

theorem tracks_perform {heard : List Char} {r : Reader} (call : Call) (ht : r.Tracks heard) :
    (r.perform call).state.Tracks (heard ++ heardIn call r) := by
  cases call with
  | char c => rw [perform, ← feed_singleton]; exact tracks_feed [c] ht
  | feed text => exact tracks_feed text.toList ht
  | finish =>
    obtain ⟨ha, hd⟩ := aligned_finish ht.1
    rw [heardIn, List.append_nil]
    exact ⟨ha, hd.trans ht.2⟩

theorem tracks_session {cs : List Char} {r : Reader} (calls : List Call) (ht : r.Tracks cs) :
    (Call.session perform calls r).2.Tracks (cs ++ heard calls r) := by
  induction calls generalizing cs r with
  | nil => simpa [Call.session, heard] using ht
  | cons call calls ih => simpa [Call.session, heard] using ih (tracks_perform call ht)

/-! ## All readers of the chain -/

theorem aligned_of_mem_chain {p : Position} {r q : Reader} (ha : r.Aligned p) (hq : q ∈ r.chain) :
    q.Aligned p := by
  induction r with
  | innermost l => rw [List.mem_singleton.1 hq]; exact ha
  | enclosing l inner ih =>
    rcases List.mem_cons.1 hq with rfl | hq
    · exact ha
    · exact ih ha.2.2.2.2 hq

theorem isFinished_of_mem_chain {p : Position} {r q : Reader} (ha : r.Aligned p)
    (h : r.isFinished = false) (hq : q ∈ r.chain) : q.isFinished = false := by
  induction r with
  | innermost l => rw [List.mem_singleton.1 hq]; exact h
  | enclosing l inner ih =>
    rcases List.mem_cons.1 hq with rfl | hq
    · exact h
    · exact ih ha.2.2.2.2 ha.2.2.2.1 hq

theorem isFinished_of_mem_tail {p : Position} {r q : Reader} (ha : r.Aligned p)
    (hq : q ∈ r.chain.tail) : q.isFinished = false := by
  cases r with
  | innermost l => simp [chain] at hq
  | enclosing l inner => exact isFinished_of_mem_chain ha.2.2.2.2 ha.2.2.2.1 hq

theorem length_chain {p : Position} {r : Reader} (ha : r.Aligned p) :
    r.chain.length = r.depth + 1 := by
  induction r with
  | innermost l => rw [show (innermost l).depth = 0 from ha.1]; rfl
  | enclosing l inner ih =>
    rw [chain, List.length_cons, ih ha.2.2.2.2]
    exact congrArg (· + 1) ha.1.symm

theorem nested?_isSome_iff {p : Position} {r : Reader} (ha : r.Aligned p) :
    r.nested?.isSome = true ↔ 0 < r.depth := by
  cases r with
  | innermost l => simp [nested?, depth, level, ha.1]
  | enclosing l inner => simp [nested?, depth, level, ha.1]

/-- An unfinished reader without open groups ends by settling its numeral, and in no other way. -/
theorem finish_eq_settle {r : Reader} (h : r.isFinished = false) (hd : r.depth = 0) :
    r.finish = r.level.frame.settle.map fun f =>
      r.setLevel { r.level with frame := f, finished := true } := by
  have h' : r.level.finished = false := h
  have hd' : r.level.depth = 0 := hd
  simp only [finish, h', hd', Nat.lt_irrefl, if_false, Bool.false_eq_true]
  rfl

theorem feed_of_finished {r : Reader} (h : r.isFinished = true) {cs : List Char} (hc : cs ≠ []) :
    feed cs r = .failed r .finished := by
  cases cs with
  | nil => exact absurd rfl hc
  | cons c cs => rw [feed, step_of_finished h, Outcome.failed_andThen]

/-- A finished reader refuses everything but the empty text, and nothing about it changes. -/
theorem perform_of_finished {r : Reader} (h : r.isFinished = true) (call : Call) :
    r.perform call = if call = .feed "" then .done r else .failed r .finished := by
  cases call with
  | char c => exact step_of_finished h c
  | feed text =>
    by_cases ht : text = ""
    · subst ht; rfl
    · rw [if_neg (by simpa using ht)]
      exact feed_of_finished h (by simpa using ht)
  | finish => exact finish_of_finished h

/-- What holds of a reader that has heard these characters, and of every reader nested in it. -/
structure SoundChain (cs : List Char) (r : Reader) : Prop where
  /-- A group is open exactly if the depth is not zero, so a depth that is lowered for a group does
  not pass below zero, and a group that is closed is there. -/
  nested_iff : ∀ q ∈ r.chain, q.nested?.isSome = true ↔ 0 < q.depth
  /-- The depth is the number of readers that are nested inside. -/
  length_eq : ∀ q ∈ r.chain, q.chain.length = q.depth + 1
  depth_nested : ∀ q ∈ r.chain, ∀ inner, q.nested? = some inner → inner.depth + 1 = q.depth
  position_eq : ∀ q ∈ r.chain, q.level.position = cs.length
  unfinished : ∀ q ∈ r.chain.tail, q.isFinished = false
  located : ∀ q ∈ r.chain,
    q.level.frame.numeral.span?.isSome = true ↔ q.level.frame.numeral.text ≠ ""
  depth_eq : r.depth = openGroups cs
  /-- The reader of a group that closes is neither finished nor inside a further group: all that its
  end does is to settle its numeral. -/
  closing : ∀ q ∈ r.chain, q.depth = 1 → ∃ inner, q.nested? = some inner ∧
    inner.isFinished = false ∧ inner.depth = 0 ∧
    inner.finish = inner.level.frame.settle.map fun f =>
      inner.setLevel { inner.level with frame := f, finished := true }
  /-- A numeral that ends brings the span for its error. -/
  reported : ∀ q ∈ r.chain, q.level.frame.numeral.text ≠ "" →
    ∃ span, q.level.frame.numeral.span? = some span ∧
      q.level.frame.numeral.take = (Numeral.empty, match q.level.frame.numeral.value? with
        | some x => .ok (some x)
        | none => .error (.malformed q.level.frame.numeral.text span))
  /-- Once finished, the reader refuses every further call, and nothing about it changes. -/
  frozen : r.isFinished = true → ∀ call,
    r.perform call = if call = .feed "" then .done r else .failed r .finished

theorem soundChain_of_tracks {cs : List Char} {r : Reader} (ht : r.Tracks cs) :
    SoundChain cs r := by
  obtain ⟨ha, hd⟩ := ht
  have aligned {q : Reader} (hq : q ∈ r.chain) : q.Aligned cs.length := aligned_of_mem_chain ha hq
  constructor
  · intro q hq
    exact nested?_isSome_iff (aligned hq)
  · intro q hq
    exact length_chain (aligned hq)
  · intro q hq inner hi
    have haq := aligned hq
    cases q with
    | innermost l => cases hi
    | enclosing l i => cases hi; exact haq.1.symm
  · intro q hq
    exact position_of_aligned (aligned hq)
  · intro q hq
    exact isFinished_of_mem_tail ha hq
  · intro q hq
    exact located_of_aligned (aligned hq)
  · exact hd
  · intro q hq hd1
    have haq := aligned hq
    cases q with
    | innermost l => rw [show (innermost l).depth = 0 from haq.1] at hd1; cases hd1
    | enclosing l inner =>
      obtain ⟨hdi, -, -, hfi, -⟩ := haq
      have hd0 : inner.depth = 0 := by
        have : l.depth = 1 := hd1
        omega
      exact ⟨inner, rfl, hfi, hd0, finish_eq_settle hfi hd0⟩
  · intro q hq ht
    exact Numeral.take_of_located (located_of_aligned (aligned hq)) ht
  · intro hf call
    exact perform_of_finished hf call

/-- **The chain of nested readers is sound in every session**, whatever the calls and whether or not
they fail. -/
theorem chain_of_session (calls : List Call) :
    SoundChain (heard calls start) (Call.session perform calls start).2 := by
  have ht := tracks_session calls tracks_start
  rw [List.nil_append] at ht
  exact soundChain_of_tracks ht

end Reckoner.Reader
