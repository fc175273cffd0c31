import Reckoner.Proofs.Scripts
/-!
# Sessions that are interrupted

Three things may stop a session before its input ends: the device takes no more bytes, it takes no
more flushes, or the input cannot be read past some byte. Whichever comes first, what was done up to
there was done as if there were no limits, and the failure tells what was being done. A limit that is
never met makes no difference: an input with fewer bytes than may be read is read to its end.

Results:
* `FirstFailure.unique`: at most one act is the first that fails.
* `exists_firstFailure`, `run_of_firstFailure`: a session fails as the first act that fails.
* `run_of_success`: a session that succeeds is the session without limits.
* `session_endsCleanly`: how a session ends under any limits.
-/
namespace Reckoner.Session

/-- What is said of a failure in front of its cause. -/
def Act.context : Act → List String
  | read _ => ["failed to read expression"]
  | answer _ => ["failed to write result"]
  | _ => []

def Failure.cause : Failure → Cause
  | prompting cause => cause
  | reading cause => cause
  | answering cause => cause

theorem cause_failure (a : Act) (c : Cause) : (a.failure c).cause = c := by
  cases a <;> rfl

theorem messages_failure (a : Act) (c : Cause) :
    (a.failure c).messages = a.context ++ [c.message] := by
  cases a <;> rfl

section
variable (o : Options) (bytes : List UInt8) (d : Device) (limit? : Option Nat)

/-- Why an act fails behind others, if it does. A read needs one line feed more than the reads in
front of it; if the input is cut short before there are so many, it would go past the cut. -/
def refusalBehind? (done : List Act) (a : Act) : Option Cause :=
  if a.isRead &&
      (Input.cut? bytes limit?).any fun limit => (bytes.take limit).count lineFeed ≤ reads done then
    some .readLimit
  else (d.after done).refusal? a

/-- The first act that fails, of all that a session without limits does. -/
structure FirstFailure (done : List Act) (a : Act) (c : Cause) : Prop where
  occurs : done ++ [a] <+: script o ⟨bytes, false⟩
  before : ∀ earlier b, earlier ++ [b] <+: done → refusalBehind? bytes d limit? earlier b = none
  fails : refusalBehind? bytes d limit? done a = some c

/-- What limits leave of a session: `t` is what remains of it, and `u` what would remain without
them. -/
structure EndsCleanly (t u : Transcript) : Prop where
  /-- All that may fail, in order: the turns, each of which prompts, flushes, reads and answers, and
  then a prompt, a flush and a read. -/
  order : ∃ (texts : List String) (cause? : Option Cause),
    script o ⟨bytes, false⟩ = texts.flatMap (turn o) ++ (ask o ++ [.read cause?])
  /-- Nothing is written that would not be written without limits. -/
  isPrefix : t.output <+: u.output
  /-- A session succeeds only if no limit is met: there is more room than input, and as much room as
  output. -/
  success : t.failure? = none → t = u ∧ (∀ k, limit? = some k → bytes.length < k) ∧
    (∀ n, d.bytes? = some n → u.output.length ≤ n) ∧
      ∀ m, d.flushes? = some m → flushes (script o ⟨bytes, false⟩) ≤ m
  /-- A session fails as the first act that fails. -/
  failure : ∀ f, t.failure? = some f ↔
    ∃ done a c, FirstFailure o bytes d limit? done a c ∧ f = a.failure c
  /-- What is said of it, and all that was written: what was done, and what there was room for. -/
  report : ∀ done a c, FirstFailure o bytes d limit? done a c →
    (a.failure c).messages = a.context ++ [c.message] ∧ t.output = d.takes (written (done ++ [a]))
  /-- If only the output is cut short, all its room is used, and nothing else makes a difference. -/
  bytes : d.flushes? = none → (∀ k, limit? = some k → bytes.length < k) → ∀ n, d.bytes? = some n →
    t.output = u.output.take n ∧
      (t.failure?.map Failure.cause = some .writeLimit ↔ n < u.output.length)

end

section
variable {o : Options} {bytes : List UInt8} {d : Device} {limit? : Option Nat}
variable {done : List Act} {a : Act} {c : Cause}

theorem FirstFailure.not_isPrefix {done' : List Act} {a' : Act} {c' : Cause}
    (h : FirstFailure o bytes d limit? done a c) (h' : FirstFailure o bytes d limit? done' a' c') :
    ¬ done ++ [a] <+: done' := by
  intro hp
  have := h'.before done a hp
  rw [h.fails] at this
  cases this

/-- **At most one act** is the first that fails. -/
theorem FirstFailure.unique {done' : List Act} {a' : Act} {c' : Cause}
    (h : FirstFailure o bytes d limit? done a c) (h' : FirstFailure o bytes d limit? done' a' c') :
    done = done' ∧ a = a' ∧ c = c' := by
  have same : done ++ [a] = done' ++ [a'] := by
    rcases List.prefix_or_prefix_of_prefix h.occurs h'.occurs with hp | hp
    · exact (List.prefix_concat_iff.1 hp).resolve_right (h.not_isPrefix h')
    · exact ((List.prefix_concat_iff.1 hp).resolve_right (h'.not_isPrefix h)).symm
  obtain ⟨rfl, ha⟩ := List.append_inj' same rfl
  cases ha
  have causes := h.fails
  rw [h'.fails] at causes
  cases causes
  exact ⟨rfl, rfl, rfl⟩

/-- An input with fewer bytes than may be read is not cut short. -/
theorem cut?_eq_none_iff :
    Input.cut? bytes limit? = none ↔ ∀ k, limit? = some k → bytes.length < k := by
  simp [Input.cut?, Option.filter_eq_none_iff]

theorem upTo_of_whole (h : Input.cut? bytes limit? = none) :
    Input.upTo bytes limit? = ⟨bytes, false⟩ := by
  rw [Input.upTo, h, Input.limited]

section
variable {limit : Nat}

theorem refusalBehind?_of_whole (h : Input.cut? bytes limit? = none) (done : List Act) (a : Act) :
    refusalBehind? bytes d limit? done a = (d.after done).refusal? a := by
  rw [refusalBehind?, h, Option.any_none, Bool.and_false, if_neg Bool.false_ne_true]

theorem refusalBehind?_read (h : Input.cut? bytes limit? = some limit) (done : List Act)
    (cause? : Option Cause) :
    refusalBehind? bytes d limit? done (.read cause?) =
      if (bytes.take limit).count lineFeed ≤ reads done then some .readLimit else cause? := by
  simp [refusalBehind?, h, Act.isRead, Device.refusal?]

/-- Up to the cut, acts fail only if the device refuses them. -/
theorem refusalBehind?_of_cutAt {cut : List Act} {cause? : Option Cause}
    (h : Input.cut? bytes limit? = some limit) (hc : CutAt o bytes limit cut cause? c)
    (hp : done ++ [a] <+: cut) :
    refusalBehind? bytes d limit? done a = (d.after done).refusal? a := by
  rw [refusalBehind?, h]
  refine if_neg ?_
  rw [Bool.and_eq_true, Option.any_some, decide_eq_true_iff]
  rintro ⟨hr, short⟩
  have fewer : reads (done ++ [a]) ≤ reads cut := hp.sublist.countP_le
  have one : reads [a] = 1 := List.countP_eq_length.2 (by simpa using hr)
  have lines := hc.lines
  rw [reads_append] at fewer
  omega

end

/-- **A session that fails** fails as the first act that fails. -/
theorem exists_firstFailure {f : Failure} (h : (run o d (.upTo bytes limit?)).failure? = some f) :
    ∃ done a c, FirstFailure o bytes d limit? done a c ∧ f = a.failure c ∧
      (run o d (.upTo bytes limit?)).output = d.takes (written (done ++ [a])) := by
  rw [run] at h ⊢
  obtain ⟨done, a, c, occurs, ok, fails, rfl, output⟩ := Device.failure?_perform_eq_some h
  rw [Device.written_append_takes ok] at output
  cases hk : Input.cut? bytes limit? with
  | none =>
    rw [upTo_of_whole hk] at occurs
    refine ⟨done, a, c, ⟨occurs, ?_, ?_⟩, rfl, output⟩
    · intro earlier b hp
      rw [refusalBehind?_of_whole hk, Device.refusal?_of_ok ok hp]
    · rw [refusalBehind?_of_whole hk, fails]
  | some limit =>
    obtain ⟨cut, cause?, c', hc⟩ := exists_cutAt o bytes limit
    have before (earlier : List Act) (b : Act) (hp : earlier ++ [b] <+: done) (hd : done <+: cut) :
        refusalBehind? bytes d limit? earlier b = none := by
      rw [refusalBehind?_of_cutAt hk hc (hp.trans hd), Device.refusal?_of_ok ok hp]
    rw [Input.upTo, hk, hc.limited] at occurs
    rcases List.prefix_concat_iff.1 occurs with same | hp
    · -- The read at the cut fails; in the script of the whole input another stands there.
      obtain ⟨rfl, ha⟩ := List.append_inj' same rfl
      cases ha
      cases fails
      have fails : refusalBehind? bytes d limit? done (.read cause?) = some c :=
        (refusalBehind?_read hk done cause?).trans hc.cause
      refine ⟨done, .read cause?, c, ⟨hc.whole, ?_, fails⟩, rfl, ?_⟩
      · exact fun earlier b hp => before earlier b hp List.prefix_rfl
      · rw [output, written_append, written_append]; rfl
    · have hd : done <+: cut := (List.prefix_append done [a]).trans hp
      refine ⟨done, a, c, ⟨?_, ?_, ?_⟩, rfl, output⟩
      · exact hp.trans ((List.prefix_append _ _).trans hc.whole)
      · exact fun earlier b hb => before earlier b hb hd
      · rw [refusalBehind?_of_cutAt hk hc hp, fails]

/-- A session that succeeds has read its whole input. -/
theorem cut?_of_success (h : (run o d (.upTo bytes limit?)).failure? = none) :
    Input.cut? bytes limit? = none := by
  cases hk : Input.cut? bytes limit? with
  | none => rfl
  | some limit =>
    obtain ⟨cut, cause?, c, hc⟩ := exists_cutAt o bytes limit
    rw [run, Input.upTo, hk, hc.limited] at h
    have last := (Device.failure?_perform_eq_none_iff.1 h).read (some c) (by simp)
    cases last

theorem not_firstFailure_of_success (h : (run o d (.upTo bytes limit?)).failure? = none) :
    ¬ FirstFailure o bytes d limit? done a c := by
  intro first
  have whole := cut?_of_success h
  have fails := first.fails
  rw [upTo_of_whole whole] at h
  rw [refusalBehind?_of_whole whole, Device.refusal?_of_ok h first.occurs] at fails
  cases fails

/-- **The first act that fails** is what the session fails with, and what it stops at. -/
theorem run_of_firstFailure (first : FirstFailure o bytes d limit? done a c) :
    (run o d (.upTo bytes limit?)).failure? = some (a.failure c) ∧
      (run o d (.upTo bytes limit?)).output = d.takes (written (done ++ [a])) := by
  cases h : (run o d (.upTo bytes limit?)).failure? with
  | none => exact absurd first (not_firstFailure_of_success h)
  | some f =>
    obtain ⟨done', a', c', first', rfl, output⟩ := exists_firstFailure h
    obtain ⟨rfl, rfl, rfl⟩ := first.unique first'
    exact ⟨rfl, output⟩

/-- A session that succeeds does what it does without limits, and the device has room for all of it. -/
theorem run_of_success (h : (run o d (.upTo bytes limit?)).failure? = none) :
    run o d (.upTo bytes limit?) = run o .unlimited ⟨bytes, false⟩ ∧
      d.Admits (script o ⟨bytes, false⟩) := by
  have whole := cut?_of_success h
  rw [upTo_of_whole whole] at h ⊢
  exact ⟨Device.perform_unlimited_of_ok h, Device.failure?_perform_eq_none_iff.1 h⟩

/-! ## What is written -/

/-- Acts that succeed without limits are written in front of all that is written behind them. -/
theorem written_isPrefix {xs ys : List Act} (h : ∀ cause?, .read cause? ∈ xs → cause? = none)
    (hp : xs <+: ys) : written xs <+: (Device.unlimited.perform ys).output := by
  obtain ⟨zs, rfl⟩ := hp
  rw [Device.perform_append (Device.failure?_perform_eq_none_iff.2 (Device.admits_unlimited.2 h))]
  exact List.prefix_append _ _

/-- Limits keep a session from writing, and make it write nothing else. -/
theorem output_run_isPrefix (o : Options) (bytes : List UInt8) (d : Device) (limit? : Option Nat) :
    (run o d (.upTo bytes limit?)).output <+: (run o .unlimited ⟨bytes, false⟩).output := by
  refine (Device.output_perform_isPrefix d _).trans ?_
  cases hk : Input.cut? bytes limit? with
  | none =>
    rw [upTo_of_whole hk]
    exact List.prefix_rfl
  | some limit =>
    obtain ⟨cut, cause?, c, hc⟩ := exists_cutAt o bytes limit
    have up_to_cut : (Device.unlimited.perform (cut ++ [.read (some c)])).output = written cut := by
      have ok := Device.failure?_perform_eq_none_iff.2 (Device.admits_unlimited.2 hc.answered)
      rw [Device.perform_append ok, Device.perform_failing_read]
      exact List.append_nil _
    rw [Input.upTo, hk, hc.limited, up_to_cut]
    exact written_isPrefix hc.answered ((List.prefix_append _ _).trans hc.whole)

/-- Without limits a session fails only at a line that is no text. -/
theorem failure?_run_unlimited {f : Failure}
    (h : (run o .unlimited ⟨bytes, false⟩).failure? = some f) : f = .reading .notText := by
  obtain ⟨done, a, c, occurs, -, fails, rfl, -⟩ := Device.failure?_perform_eq_some h
  obtain rfl | ⟨-, -, hm⟩ | ⟨-, -, n, hn, -⟩ := Device.refusal?_eq_some fails
  · have mem : .read (some c) ∈ script o ⟨bytes, false⟩ := occurs.subset (by simp)
    rcases cause?_of_mem_script mem with e | e
    · cases e
    · cases e; rfl
  · cases hm
  · cases hn

/-- If only bytes are limited, the output is cut off at the limit, and that is what fails. -/
theorem run_bytes (o : Options) (bytes : List UInt8) (n : Nat) :
    let t := run o ⟨some n, none⟩ ⟨bytes, false⟩
    let u := run o .unlimited ⟨bytes, false⟩
    t.output = u.output.take n ∧
      (t.failure?.map Failure.cause = some .writeLimit ↔ n < u.output.length) := by
  obtain ⟨output, same, fails⟩ := Device.perform_bytes n (script o ⟨bytes, false⟩)
  refine ⟨output, ?_⟩
  constructor
  · intro blames
    refine Nat.lt_of_not_le fun room => ?_
    have free : run o ⟨some n, none⟩ ⟨bytes, false⟩ = run o .unlimited ⟨bytes, false⟩ := same room
    rw [free] at blames
    obtain ⟨f, hf, cause⟩ := Option.map_eq_some_iff.1 blames
    rw [failure?_run_unlimited hf] at cause
    cases cause
  · intro more
    obtain ⟨a, -, failure⟩ := fails more
    exact (congrArg (Option.map Failure.cause) failure).trans
      (congrArg some (cause_failure a .writeLimit))

end

/-- **A session ends cleanly** wherever its device or its input fails: what it has written is a prefix
of what it would have written, it succeeds only if it meets no limit, and otherwise the first act that
fails is what the failure tells of. -/
theorem session_endsCleanly (o : Options) (bytes : List UInt8) (d : Device) (limit? : Option Nat) :
    EndsCleanly o bytes d limit? (run o d (.upTo bytes limit?))
      (run o .unlimited (.upTo bytes none)) where
  order := by
    obtain ⟨texts, cause?, -, split⟩ := script_whole o bytes
    exact ⟨texts, cause?, split⟩
  isPrefix := output_run_isPrefix o bytes d limit?
  success := by
    intro h
    obtain ⟨same, admits⟩ := run_of_success h
    have free : (run o .unlimited ⟨bytes, false⟩).failure? = none := same ▸ h
    have output : (run o .unlimited ⟨bytes, false⟩).output = written (script o ⟨bytes, false⟩) :=
      congrArg Transcript.output (Device.perform_of_ok free)
    refine ⟨same, cut?_eq_none_iff.1 (cut?_of_success h), ?_, admits.flushes⟩
    show ∀ n, d.bytes? = some n → (run o .unlimited ⟨bytes, false⟩).output.length ≤ n
    rw [output]
    exact admits.bytes
  failure := by
    intro f
    constructor
    · intro h
      obtain ⟨done, a, c, first, rfl, -⟩ := exists_firstFailure h
      exact ⟨done, a, c, first, rfl⟩
    · rintro ⟨done, a, c, first, rfl⟩
      exact (run_of_firstFailure first).1
  report := by
    intro done a c first
    exact ⟨messages_failure a c, (run_of_firstFailure first).2⟩
  bytes := by
    intro hm hk n hn
    obtain ⟨bytes?, flushes?⟩ := d
    cases hm
    cases hn
    rw [upTo_of_whole (cut?_eq_none_iff.2 hk)]
    exact run_bytes o bytes n

-- One byte short of the answer, and one short of the prompt behind it.
example :
    (run ⟨"> ", false⟩ ⟨some 46, none⟩ (.upTo (encode "&\n") none)).failure? =
        some (.answering .writeLimit) ∧
      (run ⟨"> ", false⟩ ⟨some 48, none⟩ (.upTo (encode "&\n") none)).failure? =
        some (.prompting .writeLimit) := by
  decide +kernel

-- A last line without a line feed is lost if nothing can be read behind it; with room to spare its end
-- is seen.
example :
    (run ⟨"> ", false⟩ .unlimited (.upTo (encode "&") (some 1))).failure? =
        some (.reading .readLimit) ∧
      run ⟨"> ", false⟩ .unlimited (.upTo (encode "&") (some 2)) =
        run ⟨"> ", false⟩ .unlimited (.upTo (encode "&") none) := by
  decide +kernel

end Reckoner.Session
