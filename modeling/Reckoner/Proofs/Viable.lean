import Reckoner.Proofs.Groups
/-!
# Texts that can be completed

A text that was read without an error can nearly always be completed: one digit for each frame that
is open, and a parenthesis for each group. The exception is a second separator in a numeral. Groups
and blanks do not end a numeral, so it fails in whatever way the text goes on, but not before
something ends it.

Results:
* `Stack.readAll_completion`: digits and parentheses complete what has one separator at most.
* `Stack.viable_of_readAll`: nothing else can be completed.
* `Reader.read_viable`: both for readers; and a text that fails cannot be completed at all.
-/
namespace Reckoner

/-! ## Numerals -/

namespace Decimal

theorem countP_of_isNumeral {cs : List Char} (h : IsNumeral cs) : cs.countP isSeparator ≤ 1 := by
  have digits {ds : List Char} (hd : ∀ c ∈ ds, c.isDigit = true) : ds.countP isSeparator = 0 :=
    List.countP_eq_zero.2 fun c hc hs => not_isDigit_of_isSeparator hs (hd c hc)
  cases h with
  | whole some all => rw [digits all]; exact Nat.zero_le 1
  | parts some all separates behind =>
    refine Nat.le_of_eq ?_
    rw [List.countP_append, List.countP_cons_of_pos separates, digits all, digits behind]
  | fraction separates some behind =>
    refine Nat.le_of_eq ?_
    rw [List.countP_cons_of_pos separates, digits behind]

/-- One more digit makes a numeral of any characters of numerals, if one separator at most is among
them. -/
theorem isNumeral_concat {cs : List Char} (ha : ∀ c ∈ cs, Numeral.accepts c = true)
    (hs : cs.countP isSeparator ≤ 1) {d : Char} (hd : d.isDigit = true) :
    IsNumeral (cs ++ [d]) := by
  have digits (ds : List Char) (mem : ∀ c ∈ ds, c ∈ cs) (none : ds.countP isSeparator = 0) :
      ∀ c ∈ ds, c.isDigit = true := by
    intro c hc
    have accepted := ha c (mem c hc)
    rw [Numeral.accepts, Bool.or_eq_true] at accepted
    exact accepted.resolve_right (List.countP_eq_zero.1 none c hc)
  have concat {ds : List Char} (all : ∀ c ∈ ds, c.isDigit = true) :
      ∀ c ∈ ds ++ [d], c.isDigit = true :=
    List.forall_mem_append.2 ⟨all, List.forall_mem_singleton.2 hd⟩
  by_cases some : ∃ sep ∈ cs, isSeparator sep = true
  · obtain ⟨sep, hm, separates⟩ := some
    obtain ⟨whole, fraction, rfl⟩ := List.append_of_mem hm
    rw [List.countP_append, List.countP_cons_of_pos separates] at hs
    have all := digits whole (fun c hc => List.mem_append_left _ hc) (by omega)
    have behind := digits fraction
      (fun c hc => List.mem_append_right _ (List.mem_cons_of_mem _ hc)) (by omega)
    rw [List.append_assoc, List.cons_append]
    cases whole with
    | nil => exact .fraction separates (List.concat_ne_nil d fraction) (concat behind)
    | cons c whole => exact .parts (List.cons_ne_nil c whole) all separates (concat behind)
  · have none : cs.countP isSeparator = 0 :=
      List.countP_eq_zero.2 fun c hc hsep => some ⟨c, hc, hsep⟩
    exact .whole (List.concat_ne_nil d cs) (concat (digits cs (fun _ hc => hc) none))

end Decimal

/-! ## Frames -/

namespace Frame

/-- The numeral has one separator at most, so further characters may make it right. -/
def Viable (f : Frame) : Prop := f.numeral.text.toList.countP Decimal.isSeparator ≤ 1

/-- Only characters of numerals were gathered. -/
def Spells (f : Frame) : Prop := ∀ c ∈ f.numeral.text.toList, Numeral.accepts c = true

theorem viable_of_settle {f g : Frame} (h : f.settle.toExcept = .ok g) : f.Viable := by
  rcases f.settle_cases with ⟨ht, -⟩ | ⟨-, x, hv, -⟩ | ⟨-, -, hs⟩
  · rw [Viable, ht]
    exact Nat.zero_le 1
  · obtain ⟨d, hd, -⟩ := Option.map_eq_some_iff.1 hv
    exact Decimal.countP_of_isNumeral (Decimal.isSome_ofChars?_iff.1 (Option.isSome_of_eq_some hd))
  · rw [hs] at h
    cases h

/-- A separator that was read stays, until the numeral is settled. -/
theorem viable_of_readChar {f g : Frame} {c : Char} {p : Position}
    (h : (f.readChar c p).toExcept = .ok g) (hv : g.Viable) : f.Viable := by
  rcases f.readChar_cases c p with ⟨-, hr⟩ | ⟨-, hr⟩ | ⟨-, -, hr⟩
  · rw [hr] at h
    cases h
    exact hv
  · rw [hr] at h
    cases h
    have joined : ((f.numeral.text.push c).toList.countP Decimal.isSeparator) ≤ 1 := hv
    rw [String.toList_push, List.countP_append] at joined
    exact Nat.le_trans (Nat.le_add_right _ _) joined
  · rw [hr, readOperator, Outcome.toExcept_andThen] at h
    obtain ⟨k, hs, -⟩ := bind_eq_ok_iff.1 h
    exact viable_of_settle hs

/-- One more digit, and the numeral can be settled. -/
theorem settle_push {f : Frame} (hf : f.Spells ∧ f.Viable) (p : Position) :
    ∃ g, ({ f with numeral := f.numeral.push '1' p } : Frame).settle.toExcept = .ok g := by
  cases h : ({ f with numeral := f.numeral.push '1' p } : Frame).settle.toExcept with
  | ok g => exact ⟨g, rfl⟩
  | error e =>
    have numeral := Decimal.isNumeral_concat hf.1 hf.2 (d := '1') (by decide)
    have malformed := (settle_error h).2.1
    rw [← Decimal.isSome_ofChars?_iff, ← String.toList_push] at numeral
    rw [show Decimal.ofChars? (f.numeral.text.push '1').toList = none from malformed] at numeral
    cases numeral

end Frame

/-! ## Stacks -/

namespace Stack

def Viable (m : Stack) : Prop := ∀ f ∈ m.top :: m.below, f.Viable

theorem spells_of_founded {cs : List Char} {fs : List Frame} (h : Founded cs fs) :
    ∀ f ∈ fs, f.Spells := by
  induction fs with
  | nil => exact fun f hf => absurd hf List.not_mem_nil
  | cons f fs ih =>
    refine List.forall_mem_cons.2 ⟨?_, ih h.2⟩
    intro c hc
    obtain ⟨located, gathered⟩ := h.1
    have text : f.numeral.text ≠ "" := by
      intro ht
      rw [ht] at hc
      exact absurd hc List.not_mem_nil
    obtain ⟨span, hspan⟩ := Option.isSome_iff_exists.1 (located.2 text)
    rw [(gathered span hspan).text_eq] at hc
    exact accepts_of_mem_digitsAt hc

/-- **One character** makes no frame viable that was not. -/
theorem viable_of_step {m n : Stack} (hf : m.finished = false) {c : Char}
    (h : (m.step c).toExcept = .ok n) (hv : n.Viable) : m.Viable := by
  obtain ⟨top, below⟩ := List.forall_mem_cons.1 hv
  rcases step_ok hf h with ⟨-, rfl⟩ | ⟨-, f, fs, g, hb, hs, rfl⟩ | ⟨-, -, g, hr, rfl⟩
  · exact below
  · rw [Frame.Viable, Frame.numeral_around] at top
    rw [Viable, hb]
    exact List.forall_mem_cons.2 ⟨Frame.viable_of_settle hs, List.forall_mem_cons.2 ⟨top, below⟩⟩
  · exact List.forall_mem_cons.2 ⟨Frame.viable_of_readChar hr top, below⟩

/-- **What can be read to its end** is viable in all frames before. -/
theorem viable_of_readAll {cs : List Char} {m n : Stack} (hf : m.finished = false)
    (h : readAll cs m = .ok n) : m.Viable := by
  induction cs generalizing m with
  | nil =>
    obtain ⟨f, hm, hs, -⟩ := readAll_ok hf h
    have same : m = ⟨f, [], m.position, false⟩ := Except.ok.inj hm
    rw [same]
    exact List.forall_mem_singleton.2 (Frame.viable_of_settle hs)
  | cons c cs ih =>
    rw [readAll_cons] at h
    obtain ⟨k, hs, h⟩ := bind_eq_ok_iff.1 h
    exact viable_of_step hf hs (ih (finished_of_step_ok hf hs) h)

/-- A digit for each frame, and between them the parentheses that close as many groups. -/
def completion : Nat → List Char
  | 0 => ['1']
  | depth + 1 => '1' :: ')' :: completion depth

/-- A digit is read in any frame. -/
theorem step_digit (f : Frame) (fs : List Frame) (p : Position) :
    (step '1' ⟨f, fs, p, false⟩).toExcept =
      .ok ⟨{ f with numeral := f.numeral.push '1' p }, fs, p + 1, false⟩ := by
  rw [step_plain f fs p (by decide) (by decide)]
  rfl

/-- **Digits and parentheses complete** whatever is viable in all frames. -/
theorem readAll_completion {f : Frame} {fs : List Frame}
    (h : ∀ g ∈ f :: fs, g.Spells ∧ g.Viable) (p : Position) :
    ∃ n, readAll (completion fs.length) ⟨f, fs, p, false⟩ = .ok n := by
  induction fs generalizing f p with
  | nil =>
    obtain ⟨g, settled⟩ := Frame.settle_push (h f List.mem_cons_self) p
    refine ⟨⟨g, [], p + 1, true⟩, ?_⟩
    rw [List.length_nil, completion, readAll_cons, step_digit, Except.bind, readAll_eq]
    simp only [feed, Outcome.toExcept_done, Except.bind]
    simp [finish_unfinished, settled, Except.map]
  | cons k fs ih =>
    obtain ⟨own, outer⟩ := List.forall_mem_cons.1 h
    obtain ⟨around, below⟩ := List.forall_mem_cons.1 outer
    obtain ⟨g, settled⟩ := Frame.settle_push own p
    -- The group hands its tree to the frame around it, whose numeral is as it was.
    have handed : (g.root.elim k fun t => (k.place t).state).Spells ∧
        (g.root.elim k fun t => (k.place t).state).Viable := by
      rw [Frame.Spells, Frame.Viable, Frame.numeral_around]
      exact around
    obtain ⟨n, hn⟩ := ih (List.forall_mem_cons.2 ⟨handed, below⟩) (p + 1 + 1)
    refine ⟨n, ?_⟩
    rw [List.length_cons, completion, readAll_cons, step_digit, Except.bind, readAll_cons,
      step_close rfl rfl, toExcept_close, settled]
    exact hn

example : (readAll ("1,(.(-".toList ++ completion 2) start).isOk = true := by decide

/-- A text that was read can be completed exactly if it is viable in all frames. -/
theorem completable_iff {cs : List Char} {m : Stack} (h : (feed cs start).toExcept = .ok m) :
    (∃ ds n, readAll (cs ++ ds) start = .ok n) ↔ m.Viable := by
  have read := hasRead_feed h
  constructor
  · rintro ⟨ds, n, hn⟩
    rw [readAll_append_of_ok h] at hn
    exact viable_of_readAll read.unfinished hn
  · intro hv
    obtain ⟨top, below, p, finished⟩ := m
    cases read.unfinished
    have spells := spells_of_founded read.founded
    obtain ⟨n, hn⟩ := readAll_completion (fun f hm => ⟨spells f hm, hv f hm⟩) p
    refine ⟨completion below.length, n, ?_⟩
    rw [readAll_append_of_ok h, hn]

end Stack

namespace Reader

/-- **Viable prefixes.** A text that was read so far without an error can be completed exactly if
the numeral of each frame that is open has one separator at most. A text that fails does so for the
same reason whatever follows. -/
theorem read_viable (s : String) :
    (∀ r, (feed s.toList start).toExcept = .ok r →
      ((∃ t : String, ∃ q, (read (s ++ t)).toExcept = .ok q) ↔
        ∀ q ∈ r.chain, q.level.frame.numeral.text.toList.countP Decimal.isSeparator ≤ 1)) ∧
    ∀ e, (feed s.toList start).toExcept = .error e →
      ∀ t : String, (read (s ++ t)).toExcept = .error e := by
  constructor
  · intro r hr
    have flat : (Stack.feed s.toList Stack.start).toExcept = .ok r.flatten := by
      rw [← flatten_start, flatten_feed tracks_start, Outcome.toExcept_map, hr]
      rfl
    have completed (t : String) : (∃ q, (read (s ++ t)).toExcept = .ok q) ↔
        ∃ n, Stack.readAll (s.toList ++ t.toList) Stack.start = .ok n := by
      rw [← String.toList_append, readAll_toList]
      cases (read (s ++ t)).toExcept <;> simp [Except.map]
    have frames : r.flatten.Viable ↔ ∀ q ∈ r.chain, q.level.frame.Viable := by
      rw [Stack.Viable, frames_flatten]
      simp only [List.mem_reverse, List.forall_mem_map]
    refine Iff.trans ?_ ((Stack.completable_iff flat).trans frames)
    constructor
    · rintro ⟨t, ht⟩
      exact ⟨t.toList, (completed t).1 ht⟩
    · rintro ⟨ds, hd⟩
      refine ⟨String.ofList ds, (completed _).2 ?_⟩
      rwa [String.toList_ofList]
  · intro e he t
    rw [read, String.toList_append, feed_append, Outcome.toExcept_andThen, Outcome.toExcept_andThen,
      he]
    rfl

end Reader

end Reckoner
