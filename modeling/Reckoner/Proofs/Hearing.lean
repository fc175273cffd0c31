import Reckoner.Proofs.Groups
/-!
# What was heard

A reader that was not finished is known by the characters that it has heard, whatever calls they
came by and whether or not they failed. Behind an open parenthesis it goes on as a reader would that
has heard nothing, upon the frames that were there before.

Results:
* `Reader.exists_open_group`: where the innermost group starts that a text leaves open.
* `Stack.hear_onto`, `Stack.feed_onto_eq`: a text that leaves no group of others changes none.
* `Reader.session_eq_hear`: sessions that hear the same leave the same reader.
-/
namespace Reckoner

/-! ## Open groups of a text -/

section
variable {cs ds : List Char}

theorem neverBelow_append (hc : NeverBelow cs) (hd : NeverBelow ds) : NeverBelow (cs ++ ds) := by
  intro i
  have first := hc i
  have rest := hd (i - cs.length)
  rw [List.take_append, nesting_append]
  omega

theorem matched_nil : Matched [] := ⟨fun i => by simp, rfl⟩

/-- A group in a text whose parentheses match. -/
theorem matched_group (hc : Matched cs) (hd : Matched ds) :
    Matched (cs ++ '(' :: (ds ++ [')'])) := by
  have opened : NeverBelow (cs ++ ['(']) := by
    refine neverBelow_concat hc.1 ?_
    rw [nesting_open, hc.2]
    decide
  have inside := neverBelow_append opened hd.1
  have closed : nesting (cs ++ ['('] ++ ds ++ [')']) = 0 := by
    rw [nesting_close, nesting_append, nesting_open, hc.2, hd.2]
    rfl
  have whole : cs ++ '(' :: (ds ++ [')']) = cs ++ ['('] ++ ds ++ [')'] := by simp
  rw [whole]
  exact ⟨neverBelow_concat inside (Int.le_of_eq closed.symm), closed⟩

theorem matched_plain (h : Matched cs) {c : Char} (ho : c ≠ '(') (hc : c ≠ ')') :
    Matched (cs ++ [c]) := by
  have same := (nesting_plain cs ho hc).trans h.2
  exact ⟨neverBelow_concat h.1 (Int.le_of_eq same.symm), same⟩

end

namespace Reader

/-- **The innermost open group**: the text behind its parenthesis closes whatever it opens, and one
group less was open before. -/
theorem exists_open_group {cs : List Char} (h : 0 < openGroups cs) :
    ∃ before inside, cs = before ++ '(' :: inside ∧ Matched inside ∧
      openGroups cs = openGroups before + 1 := by
  induction hn : cs.length using Nat.strongRecOn generalizing cs with
  | ind n ih =>
    rcases List.eq_nil_or_concat cs with rfl | ⟨ds, c, rfl⟩
    · exact absurd h (Nat.lt_irrefl 0)
    rw [List.length_concat] at hn
    rw [List.concat_eq_append, openGroups_append] at h ⊢
    by_cases ho : c = '('
    · subst ho
      exact ⟨ds, [], rfl, matched_nil, rfl⟩
    · by_cases hc : c = ')'
      · subst hc
        have after : depthAfter ')' (openGroups ds) = openGroups ds - 1 := rfl
        rw [after] at h ⊢
        -- The parenthesis closes the innermost group of `ds`; the one around it is the next.
        obtain ⟨b, i, hd, hi, deep⟩ := ih ds.length (by omega) (by omega) rfl
        have shorter : b.length < ds.length := by
          rw [hd, List.length_append, List.length_cons]
          omega
        obtain ⟨b', i', hb, hi', deep'⟩ := ih b.length (by omega) (by omega) rfl
        refine ⟨b', i' ++ '(' :: (i ++ [')']), ?_, matched_group hi' hi, by omega⟩
        rw [hd, hb]
        simp
      · have after : depthAfter c (openGroups ds) = openGroups ds := by simp [depthAfter, ho, hc]
        rw [after] at h ⊢
        obtain ⟨b, i, hd, hi, deep⟩ := ih ds.length (by omega) h rfl
        refine ⟨b, i ++ [c], ?_, matched_plain hi ho hc, deep⟩
        rw [hd]
        simp

end Reader

/-! ## Stacks -/

namespace Stack

/-- The stack behind characters, whether or not they fail. -/
def hear (cs : List Char) (m : Stack) : Stack := cs.foldl (fun m c => (m.step c).state) m

theorem finished_hear (cs : List Char) {m : Stack} (hf : m.finished = false) :
    (hear cs m).finished = false := by
  induction cs generalizing m with
  | nil => exact hf
  | cons c cs ih => exact ih (finished_step hf c)

theorem position_hear (cs : List Char) {m : Stack} (hf : m.finished = false) :
    (hear cs m).position = m.position + cs.length := by
  induction cs generalizing m with
  | nil => rfl
  | cons c cs ih =>
    have rest := ih (finished_step hf c)
    rw [position_step hf c] at rest
    rw [List.length_cons, Nat.add_comm cs.length, ← Nat.add_assoc]
    exact rest

/-- Characters open groups and close them, also if they fail. -/
theorem length_below_step {m : Stack} (hf : m.finished = false) {c : Char}
    (hc : ¬ (c = ')' ∧ m.below = [])) :
    ((m.step c).state.below.length : Int) = m.below.length + nesting [c] := by
  rcases step_cases hf c with ⟨rfl, h⟩ | ⟨rfl, f, fs, hb, h⟩ | ⟨ho, hp, h⟩
  · rw [h]
    rfl
  · have closed : (m.close f fs).state.below = fs := by
      rcases close_cases m f fs with ⟨e, -, h⟩ | ⟨-, -, h⟩ | ⟨-, t, -, h⟩ <;> rw [h]
    rw [h, closed, hb, List.length_cons, show nesting [')'] = -1 from rfl]
    omega
  · have plain : nesting [c] = 0 := nesting_plain [] ho fun e => hc ⟨e, hp e⟩
    rw [h, plain]
    exact (Int.add_zero _).symm

/-- All groups that the text closes were opened in it, or on the stack. -/
def Covers (m : Stack) (cs : List Char) : Prop := ∀ i, 0 ≤ m.below.length + nesting (cs.take i)

theorem covers_of_neverBelow {m : Stack} {cs : List Char} (h : NeverBelow cs) : m.Covers cs := by
  intro i
  have := h i
  omega

theorem Covers.uncons {m : Stack} {c : Char} {cs : List Char} (h : m.Covers (c :: cs))
    (hf : m.finished = false) :
    ¬ (c = ')' ∧ m.below = []) ∧ (m.step c).state.Covers cs := by
  have covered : ¬ (c = ')' ∧ m.below = []) := by
    rintro ⟨rfl, hb⟩
    have := h 1
    rw [hb] at this
    revert this
    show ¬ (0 : Int) ≤ 0 + -1
    omega
  refine ⟨covered, ?_⟩
  intro i
  have further := h (i + 1)
  rw [List.take_succ_cons, ← List.singleton_append, nesting_append] at further
  rw [length_below_step hf covered]
  omega

/-- **A text that leaves no group but its own** is heard upon other frames as without them. -/
theorem hear_onto {m : Stack} (hf : m.finished = false) {cs : List Char} (h : m.Covers cs)
    (fs : List Frame) : hear cs (m.onto fs) = (hear cs m).onto fs := by
  induction cs generalizing m with
  | nil => rfl
  | cons c cs ih =>
    obtain ⟨covered, h⟩ := h.uncons hf
    have next := ih (finished_step hf c) h
    show hear cs ((m.onto fs).step c).state = _
    rw [step_onto_eq hf covered fs]
    exact next

theorem feed_onto_eq {m : Stack} (hf : m.finished = false) {cs : List Char} (h : m.Covers cs)
    (fs : List Frame) : feed cs (m.onto fs) = (feed cs m).map (onto fs) := by
  induction cs generalizing m with
  | nil => rfl
  | cons c cs ih =>
    obtain ⟨covered, h⟩ := h.uncons hf
    rw [feed, feed, step_onto_eq hf covered fs]
    exact Outcome.map_andThen (ih (finished_step hf c) h)

theorem length_below_hear {m : Stack} (hf : m.finished = false) {cs : List Char}
    (h : m.Covers cs) : ((hear cs m).below.length : Int) = m.below.length + nesting cs := by
  induction cs generalizing m with
  | nil => exact (Int.add_zero _).symm
  | cons c cs ih =>
    obtain ⟨covered, h⟩ := h.uncons hf
    have next := ih (finished_step hf c) h
    rw [length_below_step hf covered] at next
    rw [← List.singleton_append, nesting_append, ← Int.add_assoc]
    exact next

/-- In an open group that has closed what it opened, the frames below are those from before. -/
theorem below_hear_open {m : Stack} (hf : m.finished = false) {inside : List Char}
    (h : Matched inside) : (hear ('(' :: inside) m).below = m.top :: m.below := by
  have opened : (m.step '(').state =
      (⟨Frame.empty, [], m.position + 1, false⟩ : Stack).onto (m.top :: m.below) := by
    rw [step_open hf, hf]
    rfl
  have covers : (⟨Frame.empty, [], m.position + 1, false⟩ : Stack).Covers inside :=
    covers_of_neverBelow h.1
  have none := length_below_hear rfl covers
  rw [h.2] at none
  show (hear inside (m.step '(').state).below = _
  rw [opened, hear_onto rfl covers, onto]
  rw [List.length_eq_zero_iff.1 (Int.ofNat_eq_zero.1 none), List.nil_append]

end Stack

/-! ## Readers -/

namespace Reader

/-- The reader behind characters, whether or not they fail. -/
def hear (cs : List Char) (r : Reader) : Reader := cs.foldl (fun r c => (r.step c).state) r

theorem hear_append (cs ds : List Char) (r : Reader) : hear (cs ++ ds) r = hear ds (hear cs r) :=
  List.foldl_append

theorem isFinished_hear (cs : List Char) {r : Reader} (hf : r.isFinished = false) :
    (hear cs r).isFinished = false := by
  induction cs generalizing r with
  | nil => exact hf
  | cons c cs ih => exact ih (isFinished_step hf c)

theorem tracks_hear {heard : List Char} (cs : List Char) {r : Reader} (ht : r.Tracks heard)
    (hf : r.isFinished = false) : (hear cs r).Tracks (heard ++ cs) := by
  induction cs generalizing heard r with
  | nil => rwa [List.append_nil]
  | cons c cs ih =>
    have next := ih (tracks_step ht hf c) (isFinished_step hf c)
    rwa [List.append_assoc] at next

theorem flatten_hear {heard : List Char} (cs : List Char) {r : Reader} (ht : r.Tracks heard)
    (hf : r.isFinished = false) : (hear cs r).flatten = Stack.hear cs r.flatten := by
  induction cs generalizing heard r with
  | nil => rfl
  | cons c cs ih =>
    have next := ih (tracks_step ht hf c) (isFinished_step hf c)
    have step : (r.flatten.step c).state = (r.step c).state.flatten := by
      rw [flatten_step ht.1]
      rfl
    show _ = Stack.hear cs (r.flatten.step c).state
    rw [step]
    exact next

/-! ## Sessions -/

theorem feed_state (cs : List Char) {r : Reader} (hf : r.isFinished = false) :
    (feed cs r).state = hear (heardOf cs r) r := by
  induction cs generalizing r with
  | nil => rfl
  | cons c cs ih =>
    rw [feed, heardOf, if_neg (by simp [hf]), Outcome.andThen]
    cases he : (r.step c).error? with
    | some e => rfl
    | none => exact ih (isFinished_step hf c)

theorem session_of_finished {r : Reader} (hf : r.isFinished = true) (calls : List Call) :
    (Call.session perform calls r).2 = r := by
  induction calls with
  | nil => rfl
  | cons call calls ih =>
    have unchanged : (r.perform call).state = r := by
      rw [perform_of_finished hf]
      split <;> rfl
    rw [Call.session, unchanged]
    exact ih

theorem isFinished_finish (r : Reader) : r.finish.state.isFinished = true := by
  unfold finish
  split
  · assumption
  · simp only
    split
    · cases r <;> rfl
    · cases r <;> rfl

theorem perform_state {call : Call} {r : Reader} (hf : r.isFinished = false)
    (hn : (r.perform call).state.isFinished = false) :
    (r.perform call).state = hear (heardIn call r) r := by
  cases call with
  | char c =>
    rw [perform, ← feed_singleton]
    exact feed_state [c] hf
  | feed text => exact feed_state text.toList hf
  | finish =>
    rw [perform, isFinished_finish] at hn
    cases hn

/-- **A reader that is not finished is known by what it has heard**, whatever the calls were. -/
theorem session_eq_hear (calls : List Call) {r : Reader}
    (hf : (Call.session perform calls r).2.isFinished = false) :
    (Call.session perform calls r).2 = hear (heard calls r) r := by
  induction calls generalizing r with
  | nil => rfl
  | cons call calls ih =>
    have unfinished {s : Reader} (calls : List Call)
        (hs : (Call.session perform calls s).2.isFinished = false) : s.isFinished = false := by
      cases h : s.isFinished with
      | false => rfl
      | true =>
        rw [session_of_finished h, h] at hs
        exact hs
    have next : (r.perform call).state.isFinished = false := unfinished calls hf
    have this : r.isFinished = false := unfinished (call :: calls) hf
    rw [heard, hear_append, ← perform_state this next]
    exact ih hf

end Reader

end Reckoner
