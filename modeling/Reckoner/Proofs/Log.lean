import Reckoner.Proofs.Hearing
import Mathlib.Data.List.Forall2
import Mathlib.Data.List.Induction
/-!
# What the log tells of groups

Events tell where groups start and what is in them when they end. They are told by readers inside
readers, but together they give the parentheses of the text: each `(` that is read is told with its
position, each `)` with what stands between it and the `(` that matches, read as a text of its own.

Results:
* `Stack.log_step`: what one character adds to the log.
* `Stack.exists_within`: what is read in a group could be read on its own.
* `encloses_of_close`: the tree of a group that ends.
* `Stack.log_feed`: the groups in the log of a text that is read so far.
* `Reader.groups_of_read`: the groups in the log of any text.
-/
namespace Reckoner

/-! ## The log -/

/-- Where groups start, as events tell. -/
def openings (events : List Event) : List Position :=
  events.filterMap fun
    | .opened p => some p
    | _ => none

/-- What is in the groups that end, as events tell. -/
def closings (events : List Event) : List (Option Tree) :=
  events.filterMap fun
    | .closed group => some group
    | _ => none

theorem openings_append (es fs : List Event) : openings (es ++ fs) = openings es ++ openings fs :=
  List.filterMap_append

theorem closings_append (es fs : List Event) : closings (es ++ fs) = closings es ++ closings fs :=
  List.filterMap_append

/-- The events tell nothing of groups. -/
def Quiet (events : List Event) : Prop := openings events = [] ∧ closings events = []

theorem quiet_nil : Quiet [] := ⟨rfl, rfl⟩

theorem Quiet.append {fs : List Event} (h : Quiet fs) (es : List Event) :
    openings (es ++ fs) = openings es ∧ closings (es ++ fs) = closings es := by
  rw [openings_append, closings_append, h.1, h.2, List.append_nil, List.append_nil]
  exact ⟨rfl, rfl⟩

/-- The event is that a group ends. -/
def Event.isClosing : Event → Bool
  | closed _ => true
  | _ => false

/-- The event is that a group ends with this tree, or with none, and the log shows it so. -/
structure Event.Closes (e : Event) (group : Option Tree) : Prop where
  event_eq : e = .closed group
  message_eq : e.message = group.elim "closing empty nested group" fun _ => "closing nested group"
  fields_eq : e.fields = group.toList.map fun t => ("group", t.text)

theorem Event.closes_closed (group : Option Tree) : (Event.closed group).Closes group := by
  cases group <;> exact ⟨rfl, rfl, rfl⟩

theorem filter_isClosing (events : List Event) :
    events.filter Event.isClosing = (closings events).map .closed := by
  induction events with
  | nil => rfl
  | cons e events ih =>
    cases e with
    | closed group => exact congrArg (.closed group :: ·) ih
    | opened p => exact ih
    | discarded operand root => exact ih
    | rejected error => exact ih

namespace Frame

theorem quiet_place (t : Tree) (f : Frame) : Quiet (f.place t).events := by
  unfold place
  split
  · exact quiet_nil
  · split
    · exact quiet_nil
    · exact ⟨rfl, rfl⟩

theorem quiet_settle (f : Frame) : Quiet f.settle.events := by
  rcases f.settle_cases with ⟨-, hs⟩ | ⟨-, x, -, hs⟩ | ⟨-, -, hs⟩
  · rw [hs]; exact quiet_nil
  · rw [hs]; exact quiet_place _ _
  · rw [hs]; exact quiet_nil

theorem quiet_readChar (f : Frame) (c : Char) (p : Position) : Quiet (f.readChar c p).events := by
  have settled := f.quiet_settle
  rcases f.readChar_cases c p with ⟨-, hr⟩ | ⟨-, hr⟩ | ⟨-, -, hr⟩
  · rw [hr]; exact quiet_nil
  · rw [hr]; exact quiet_nil
  · rw [hr]
    rcases f.readOperator_cases c p with ⟨-, ho⟩ | ⟨-, ⟨op, t, -, -, ho⟩ | ⟨-, -, ho⟩ | ho⟩ <;>
      rw [ho] <;> exact settled

end Frame

namespace Stack

/-- **What one character adds to the log**: a `(` its position, a `)` that ends a group what is in
the group, and any other character, or one that fails, nothing that tells of groups. -/
theorem log_step {m : Stack} (hf : m.finished = false) (c : Char) :
    (c = '(' ∧ (m.step c).error? = none ∧
      openings (m.step c).events = [m.position] ∧ closings (m.step c).events = []) ∨
      (c = ')' ∧ (m.step c).error? = none ∧ m.below ≠ [] ∧ openings (m.step c).events = [] ∧
        ∃ g, m.top.settle.toExcept = .ok g ∧ closings (m.step c).events = [g.root]) ∨
      (c ≠ '(' ∧ (c = ')' → (m.step c).error? ≠ none) ∧ Quiet (m.step c).events) := by
  rcases step_cases hf c with ⟨ho, hs⟩ | ⟨hc, f, fs, hb, hs⟩ | ⟨ho, hc, hs⟩
  · rw [hs]
    exact .inl ⟨ho, rfl, rfl, rfl⟩
  · right
    obtain ⟨opens, closes⟩ := m.top.quiet_settle
    rw [hs]
    rcases close_cases m f fs with ⟨e, -, hk⟩ | ⟨he, hr, hk⟩ | ⟨he, t, hr, hk⟩
    · rw [hk, hc]
      exact .inr ⟨by decide, fun _ => Option.some_ne_none e, opens, closes⟩
    · rw [hk]
      refine .inl ⟨hc, rfl, by rw [hb]; exact List.cons_ne_nil f fs, ?_, m.top.settle.state,
        Outcome.toExcept_eq_ok_iff.2 ⟨he, rfl⟩, ?_⟩
      · rw [openings_append, opens]; rfl
      · rw [closings_append, closes, hr]; rfl
    · obtain ⟨opens', closes'⟩ := f.quiet_place t
      rw [hk]
      refine .inl ⟨hc, rfl, by rw [hb]; exact List.cons_ne_nil f fs, ?_, m.top.settle.state,
        Outcome.toExcept_eq_ok_iff.2 ⟨he, rfl⟩, ?_⟩
      · rw [openings_append, opens]; exact opens'
      · rw [closings_append, closes, hr]
        exact congrArg (some t :: ·) closes'
  · rw [hs]
    refine .inr (.inr ⟨ho, ?_, m.top.quiet_readChar c m.position⟩)
    rintro rfl he
    exact Frame.readChar_close m.top _ m.position (Outcome.toExcept_eq_ok_iff.2 ⟨he, rfl⟩)

theorem quiet_of_failed {m : Stack} (hf : m.finished = false) {c : Char}
    (h : (m.step c).error? ≠ none) : c ≠ '(' ∧ Quiet (m.step c).events := by
  rcases log_step hf c with ⟨-, he, -⟩ | ⟨-, he, -⟩ | ⟨ho, -, quiet⟩
  · exact absurd he h
  · exact absurd he h
  · exact ⟨ho, quiet⟩

theorem quiet_finish (m : Stack) : Quiet m.finish.events := by
  unfold finish
  split
  · exact quiet_nil
  · split
    · exact quiet_nil
    · exact m.top.quiet_settle

end Stack

/-! ## Parentheses that match -/

/-- Where a character stands in a text. -/
def placesOf (c : Char) (cs : List Char) : List Position :=
  (cs.zipIdx.filter fun x => x.1 == c).map Prod.snd

theorem placesOf_concat (c : Char) (cs : List Char) (d : Char) :
    placesOf c (cs ++ [d]) = placesOf c cs ++ if d = c then [cs.length] else [] := by
  by_cases h : d = c
  · simp [placesOf, List.zipIdx_append, h]
  · simp [placesOf, List.zipIdx_append, h]

theorem lt_of_mem_placesOf {c : Char} {cs : List Char} {p : Position} (h : p ∈ placesOf c cs) :
    p < cs.length := by
  obtain ⟨⟨d, q⟩, hx, rfl⟩ := List.mem_map.1 h
  have := List.snd_lt_of_mem_zipIdx (List.mem_filter.1 hx).1
  simpa using this

theorem Reader.nesting_le_openGroups (cs : List Char) : nesting cs ≤ openGroups cs := by
  induction cs using List.reverseRecOn with
  | nil => exact Int.le_refl 0
  | append_singleton cs c ih =>
    rw [openGroups_append, depthAfter]
    by_cases ho : c = '('
    · subst ho
      rw [nesting_open, if_pos rfl]
      omega
    · rw [if_neg ho]
      by_cases hc : c = ')'
      · subst hc
        rw [nesting_close, if_pos rfl]
        omega
      · rw [nesting_plain cs ho hc, if_neg hc]
        exact ih

/-- The group that ends with the parenthesis at `q` starts with the one that matches, and the text
between the two can be read on its own, with this tree or without any. -/
def Encloses (cs : List Char) (q : Position) (group : Option Tree) : Prop :=
  ∃ p, p < q ∧ cs[p]? = some '(' ∧ cs[q]? = some ')' ∧ Matched ((cs.take q).drop (p + 1)) ∧
    Reader.meaning (String.ofList ((cs.take q).drop (p + 1))) = .ok group

theorem Encloses.append {cs : List Char} {q : Position} {group : Option Tree}
    (h : Encloses cs q group) (ds : List Char) : Encloses (cs ++ ds) q group := by
  obtain ⟨p, lt, opens, closes, matched, inside⟩ := h
  obtain ⟨hq, -⟩ := List.getElem?_eq_some_iff.1 closes
  refine ⟨p, lt, ?_, ?_, ?_, ?_⟩
  · rw [List.getElem?_append_left (Nat.lt_trans lt hq)]; exact opens
  · rw [List.getElem?_append_left hq]; exact closes
  · rw [take_append (Nat.le_of_lt hq)]; exact matched
  · rw [take_append (Nat.le_of_lt hq)]; exact inside

namespace Stack

/-- **What is read in a group**, up to a place where it has closed all that it opened, could be read
as a text of its own. -/
theorem exists_within {m n : Stack} (hf : m.finished = false) {inside : List Char}
    (hi : NeverBelow inside) (h : (feed ('(' :: inside) m).toExcept = .ok n) :
    ∃ s, (feed inside start).toExcept = .ok s ∧ n = m.within s := by
  rw [feed_cons_of_ok (step_within hf), within, feed_onto_eq rfl (covers_of_neverBelow hi),
    Outcome.toExcept_map, feed_moving located_start rfl (relocates_add (m.position + 1) _)] at h
  obtain ⟨k, hk, rfl⟩ := map_eq_ok_iff.1 h
  obtain ⟨s, hs, rfl⟩ := recasted_eq_ok_iff.1 hk
  exact ⟨s, hs, rfl⟩

end Stack

/-- **The tree of a group that ends** is the one of the text in it. -/
theorem encloses_of_close {cs : List Char} {n : Stack}
    (h : (Stack.feed cs Stack.start).toExcept = .ok n) (deep : 0 < Reader.openGroups cs) {g : Frame}
    (hs : n.top.settle.toExcept = .ok g) : Encloses (cs ++ [')']) cs.length g.root := by
  obtain ⟨before, inside, rfl, matched, -⟩ := Reader.exists_open_group deep
  rw [Stack.toExcept_feed_append] at h
  obtain ⟨m, hm, h⟩ := bind_eq_ok_iff.1 h
  obtain ⟨s, hin, rfl⟩ := Stack.exists_within (Stack.feed_ok rfl hm).1 matched.1 h
  have read := Stack.hasRead_feed hin
  have flat : s.below.length = 0 := by
    have := read.depth
    rw [matched.2] at this
    omega
  -- The frame of the group is the one of the text in it, but for its positions.
  have located := Stack.located_feed Stack.located_start rfl hin s.top List.mem_cons_self
  have moves := Recast.faithful_moving (relocates_add (m.position + 1) s.position)
  have settled := Frame.settle_recast moves located
  rw [show (s.top.recast (.moving (· + (m.position + 1)))).settle.toExcept = .ok g from hs] at settled
  obtain ⟨k, hk, rfl⟩ := recasted_eq_ok_iff.1 settled.symm
  have whole : Stack.readAll inside Stack.start =
      .ok { s with top := k, finished := true } := by
    rw [Stack.readAll_eq, hin]
    show s.finish.toExcept = _
    rw [Stack.finish_unfinished read.unfinished, flat, if_neg (Nat.lt_irrefl 0), hk]
    rfl
  have between : (((before ++ '(' :: inside) ++ [')']).take
      (before ++ '(' :: inside).length).drop (before.length + 1) = inside := by
    rw [List.take_left]
    simp
  refine ⟨before.length, by simp, by simp, by simp, ?_, ?_⟩
  · rw [between]; exact matched
  · rw [between, Reader.meaning_eq, String.toList_ofList, whole]
    have below : s.below = [] := List.length_eq_zero_iff.1 flat
    simp only [Except.map, Stack.root, below, List.getLastD_nil]
    rfl

/-! ## Texts -/

namespace Stack

theorem feed_append (cs ds : List Char) (m : Stack) :
    feed (cs ++ ds) m = (feed cs m).andThen (feed ds) := by
  induction cs generalizing m with
  | nil => exact (Outcome.done_andThen m (feed ds)).symm
  | cons c cs ih =>
    rw [List.cons_append, feed, feed, Outcome.andThen_assoc]
    exact congrArg _ (funext ih)

/-- A character that is read adds its events, and so does the first one that fails. -/
theorem events_feed_cons {pre : List Char} {m n : Stack} (h : (feed pre m).toExcept = .ok n)
    (c : Char) {post : List Char} (hp : post = [] ∨ (n.step c).error? ≠ none) :
    (feed (pre ++ c :: post) m).events = (feed pre m).events ++ (n.step c).events := by
  obtain ⟨he, rfl⟩ := Outcome.toExcept_eq_ok_iff.1 h
  rw [feed_append, Outcome.andThen_of_ok he, feed]
  rcases hp with rfl | hc
  · cases hc : ((feed pre m).state.step c).error? <;> simp [Outcome.andThen, hc, feed, Outcome.done]
  · obtain ⟨e, hc⟩ := Option.ne_none_iff_exists'.1 hc
    rw [Outcome.andThen, hc]

/-- **The log of a text that is read** has all its parentheses. -/
theorem log_feed {cs : List Char} {n : Stack} (h : (feed cs start).toExcept = .ok n) :
    openings (feed cs start).events = placesOf '(' cs ∧
      List.Forall₂ (Encloses cs) (placesOf ')' cs) (closings (feed cs start).events) := by
  induction cs using List.reverseRecOn generalizing n with
  | nil => exact ⟨rfl, .nil⟩
  | append_singleton cs c ih =>
    rw [toExcept_feed_append] at h
    obtain ⟨m, hm, h⟩ := bind_eq_ok_iff.1 h
    rw [toExcept_feed_cons] at h
    obtain ⟨k, hs, -⟩ := bind_eq_ok_iff.1 h
    obtain ⟨ok, -⟩ := Outcome.toExcept_eq_ok_iff.1 hs
    have read := hasRead_feed hm
    obtain ⟨opens, closes⟩ := ih hm
    have before := closes.imp fun _ _ (h : Encloses cs _ _) => h.append [c]
    rw [events_feed_cons hm c (.inl rfl), openings_append, closings_append, opens, placesOf_concat,
      placesOf_concat]
    rcases log_step read.unfinished c with
      ⟨rfl, -, hopen, hclose⟩ | ⟨rfl, -, hb, hopen, g, hg, hclose⟩ | ⟨ho, hc, hopen, hclose⟩
    · rw [hopen, hclose, read.position]
      refine ⟨rfl, ?_⟩
      rw [if_neg (by decide), List.append_nil, List.append_nil]
      exact before
    · have deep : 0 < Reader.openGroups cs := by
        have := Reader.nesting_le_openGroups cs
        have := List.length_pos_of_ne_nil hb
        have := read.depth
        omega
      rw [hopen, hclose]
      refine ⟨rfl, ?_⟩
      rw [if_pos rfl]
      exact List.rel_append before (.cons (encloses_of_close hm deep hg) .nil)
    · have plain : c ≠ ')' := fun e => hc e ok
      rw [hopen, hclose, if_neg ho, if_neg plain, List.append_nil, List.append_nil, List.append_nil]
      exact ⟨rfl, before⟩

end Stack

namespace Reader

/-- A text can be read up to a place, with the character there. -/
def readsTo (cs : List Char) (q : Position) : Bool := (feed (cs.take (q + 1)) start).error?.isNone

/-- In a text that is read, no parenthesis fails. -/
theorem filter_readsTo {cs : List Char} (h : (feed cs start).error? = none) (c : Char)
    (ds : List Char) :
    (placesOf c cs).filter (readsTo (cs ++ ds)) = placesOf c cs := by
  refine List.filter_eq_self.2 fun q hq => ?_
  have within : q + 1 ≤ cs.length := lt_of_mem_placesOf hq
  have split : feed (cs.take (q + 1) ++ cs.drop (q + 1)) start = feed cs start := by
    rw [List.take_append_drop]
  rw [feed_append] at split
  rw [← split] at h
  rw [readsTo, take_append within, (Outcome.andThen_eq_none_iff.1 h).1]
  rfl

/-! ## Whole texts -/

theorem heardOf_isPrefix (cs : List Char) (r : Reader) : heardOf cs r <+: cs := by
  induction cs generalizing r with
  | nil => exact List.prefix_rfl
  | cons c cs ih =>
    rw [heardOf]
    split
    · exact List.nil_prefix
    · refine List.prefix_cons_inj c |>.2 ?_
      split
      · exact List.nil_prefix
      · exact ih _

theorem heardOf_append {cs : List Char} {r : Reader} (hf : r.isFinished = false)
    (h : (feed cs r).error? = none) (ds : List Char) :
    heardOf (cs ++ ds) r = cs ++ heardOf ds (feed cs r).state := by
  induction cs generalizing r with
  | nil => rfl
  | cons c cs ih =>
    rw [feed] at h
    obtain ⟨hs, h⟩ := Outcome.andThen_eq_none_iff.1 h
    rw [List.cons_append, heardOf, if_neg (by simp [hf]), hs, feed, Outcome.andThen_of_ok hs]
    exact congrArg (c :: ·) (ih (isFinished_step hf c) h)

theorem heardOf_of_failed {pre : List Char} (ok : (feed pre start).error? = none) {c : Char}
    {e : ReadError} (h : (feed (pre ++ [c]) start).error? = some e) (post : List Char) :
    heardOf (pre ++ c :: post) start = pre ++ [c] := by
  have unfinished : (feed pre start).state.isFinished = false := by
    rw [feed_state pre rfl]
    exact isFinished_hear _ rfl
  rw [feed_append, Outcome.andThen_of_ok ok, feed_singleton] at h
  rw [heardOf_append rfl ok, heardOf, if_neg (by simp [unfinished]), h]

/-- The text is read up to its end, or to a character that fails; what happens there tells nothing
of groups. -/
structure ReadTo (text : String) (cs : List Char) (n : Stack) : Prop where
  isPrefix : cs <+: text.toList
  feed_eq : (Stack.feed cs Stack.start).toExcept = .ok n
  log : ∃ es, (read text).events = (Stack.feed cs Stack.start).events ++ es ∧ Quiet es
  heard : heardOf text.toList start = cs ∨ ∃ c, c ≠ '(' ∧
    heardOf text.toList start = cs ++ [c] ∧ readsTo text.toList cs.length = false

theorem exists_readTo (text : String) : ∃ cs n, ReadTo text cs n := by
  have log : (read text).events = (Stack.read text).events := by rw [flatten_read]; rfl
  have ok {cs : List Char} {n : Stack} (h : (Stack.feed cs Stack.start).toExcept = .ok n) :
      (feed cs start).error? = none :=
    (error?_feed cs).trans (Outcome.toExcept_eq_ok_iff.1 h).1
  cases h : (Stack.feed text.toList Stack.start).toExcept with
  | ok n =>
    refine ⟨text.toList, n, List.prefix_rfl, h, ?_, .inl ?_⟩
    · rw [log, Stack.read, Outcome.andThen_of_ok (Outcome.toExcept_eq_ok_iff.1 h).1]
      exact ⟨_, rfl, Stack.quiet_finish _⟩
    · have := heardOf_append (r := start) rfl (ok h) []
      rwa [List.append_nil, heardOf, List.append_nil] at this
  | error e =>
    obtain ⟨pre, c, post, n, whole, hp, hc⟩ := Stack.feed_error h
    have fails : (n.step c).error? = some e := Outcome.toExcept_eq_error_iff.1 hc
    have failed : (n.step c).error? ≠ none := by rw [fails]; exact Option.some_ne_none e
    have stops : (feed (pre ++ [c]) start).error? = some e := by
      rw [error?_feed, ← Outcome.toExcept_eq_error_iff, Stack.feed_append_of_ok hp,
        Stack.feed_cons_of_error hc]
    obtain ⟨ho, quiet⟩ := Stack.quiet_of_failed (Stack.hasRead_feed hp).unfinished failed
    have heard : heardOf text.toList start = pre ++ [c] := by
      rw [whole, heardOf_of_failed (ok hp) stops]
    refine ⟨pre, n, ⟨c :: post, whole.symm⟩, hp, ?_, .inr ⟨c, ho, heard, ?_⟩⟩
    · rw [log, Stack.read, Outcome.andThen, Outcome.toExcept_eq_error_iff.1 h, whole,
        Stack.events_feed_cons hp c (.inr failed)]
      exact ⟨_, rfl, quiet⟩
    · have upTo : text.toList.take (pre.length + 1) = pre ++ [c] := by
        rw [whole, List.take_length_add_append, List.take_succ_cons, List.take_zero]
      rw [readsTo, upTo, stops]
      rfl

/-- **The log tells the groups of a text**, whether or not it can be read. Of the characters up to
the one that fails, each `(` is in the log with its position, and each `)` that does not fail with
the tree of the text between it and the `(` that matches, or without one if that text has none. -/
theorem groups_of_read (text : String) :
    let consumed := heardOf text.toList start
    consumed <+: text.toList ∧
      openings (read text).events = placesOf '(' consumed ∧
      List.Forall₂ (fun q e => ∃ group, Encloses text.toList q group ∧ Event.Closes e group)
        ((placesOf ')' consumed).filter (readsTo text.toList))
        ((read text).events.filter Event.isClosing) := by
  intro consumed
  obtain ⟨cs, n, initial, read, ⟨es, log, quiet⟩, heard⟩ := exists_readTo text
  obtain ⟨ds, whole⟩ := initial
  have ok : (feed cs start).error? = none :=
    (error?_feed cs).trans (Outcome.toExcept_eq_ok_iff.1 read).1
  obtain ⟨opens, closes⟩ := Stack.log_feed read
  obtain ⟨opens', closes'⟩ := quiet.append (Stack.feed cs Stack.start).events
  have kept := filter_readsTo ok ')' ds
  rw [whole] at kept
  have groups :
      List.Forall₂ (fun q e => ∃ group, Encloses text.toList q group ∧ Event.Closes e group)
        (placesOf ')' cs) ((Reader.read text).events.filter Event.isClosing) := by
    rw [log, filter_isClosing, closes', List.forall₂_map_right_iff, ← whole]
    exact closes.imp fun _ group h => ⟨group, h.append ds, Event.closes_closed group⟩
  refine ⟨heardOf_isPrefix _ _, ?_⟩
  rw [log, opens', opens, ← log]
  rcases heard with heard | ⟨c, ho, heard, fails⟩
  · rw [show consumed = cs from heard, kept]
    exact ⟨rfl, groups⟩
  · have dropped : (if c = ')' then [cs.length] else []).filter (readsTo text.toList) = [] := by
      split
      · rw [List.filter_singleton, fails]; rfl
      · rfl
    rw [show consumed = cs ++ [c] from heard, placesOf_concat, placesOf_concat, if_neg ho,
      List.filter_append, kept, dropped, List.append_nil, List.append_nil]
    exact ⟨rfl, groups⟩

example : openings (read "(1)*(-(2))3x(").events = [0, 4, 6] := by decide

end Reader

end Reckoner
