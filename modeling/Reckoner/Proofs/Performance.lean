import Reckoner.Session.Transcript
/-!
# Performing acts

What a device does with one act, and what remains of many. A device keeps account of the bytes and
the flushes that it still accepts, and the first act that it refuses is the last that it performs.

Results:
* `Device.act_eq`: all that a device does with an act.
* `Device.failure?_perform_eq_none_iff`: acts succeed if no read among them fails, and the device
  has room for all that they write and flush.
* `Device.perform_append`: acts that succeed are performed in front of those behind them.
* `Device.failure?_perform_eq_some`: acts that fail have a first that fails.
* `Device.perform_bytes`: a limit on bytes alone cuts off the output, and nothing else.
-/
namespace Reckoner.Session

/-! ## Acts -/

namespace Act

/-- What an act writes if it succeeds. -/
def bytes : Act → List UInt8
  | prompt text => encode text
  | answer text => encode text
  | _ => []

def events : Act → List Event
  | note event => [event]
  | _ => []

/-- The failure of a session whose act fails. To note an event cannot fail. -/
def failure : Act → Cause → Failure
  | read _ => .reading
  | answer _ => .answering
  | _ => .prompting

def isRead : Act → Bool
  | read _ => true
  | _ => false

end Act

def written (acts : List Act) : List UInt8 := acts.flatMap Act.bytes

def noted (acts : List Act) : List Event := acts.flatMap Act.events

def flushes (acts : List Act) : Nat := acts.count .flush

def reads (acts : List Act) : Nat := acts.countP Act.isRead

section
variable (a : Act) (xs ys : List Act)

theorem written_append : written (xs ++ ys) = written xs ++ written ys := List.flatMap_append

theorem written_cons : written (a :: xs) = a.bytes ++ written xs := List.flatMap_cons

theorem written_singleton : written [a] = a.bytes := List.flatMap_singleton _ _

theorem noted_cons : noted (a :: xs) = a.events ++ noted xs := List.flatMap_cons

theorem flushes_append : flushes (xs ++ ys) = flushes xs + flushes ys := List.count_append

theorem reads_append : reads (xs ++ ys) = reads xs + reads ys := List.countP_append

end

/-! ## Devices -/

namespace Device

/-- What a device accepts behind acts that it has performed. -/
def after (d : Device) (done : List Act) : Device :=
  ⟨d.bytes?.map (· - (written done).length), d.flushes?.map (· - flushes done)⟩

/-- Bytes as far as the device takes them. -/
def takes (d : Device) (bytes : List UInt8) : List UInt8 :=
  match d.bytes? with
  | none => bytes
  | some n => bytes.take n

/-- Why an act fails, if it does. -/
def refusal? (d : Device) : Act → Option Cause
  | .prompt text => if d.bytes?.any (· < (encode text).length) then some .writeLimit else none
  | .flush => if d.flushes? = some 0 then some .flushLimit else none
  | .read cause? => cause?
  | .note _ => none
  | .answer text => if d.bytes?.any (· < (encode text).length) then some .writeLimit else none

variable {d : Device} {a : Act} {acts xs ys : List Act}

theorem after_nil : d.after [] = d := by
  simp [after, written, flushes]

theorem after_append : d.after (xs ++ ys) = (d.after xs).after ys := by
  simp only [after, written_append, flushes_append, List.length_append, Option.map_map,
    Function.comp_def, Nat.sub_add_eq]

theorem takes_nil (d : Device) : d.takes [] = [] := by
  obtain ⟨_ | n, flushes?⟩ := d
  · rfl
  · exact List.take_nil

theorem write_eq (d : Device) (bytes : List UInt8) (refused : Failure) :
    d.write bytes refused =
      (⟨d.bytes?.map (· - bytes.length), d.flushes?⟩,
        ⟨d.takes bytes, [],
          if d.bytes?.any (· < bytes.length) then some refused else none⟩) := by
  obtain ⟨_ | n, flushes?⟩ := d
  · rfl
  · by_cases h : bytes.length ≤ n
    · simp [write, takes, h, Nat.not_lt.2 h, List.take_of_length_le h]
    · simp [write, takes, h, Nat.lt_of_not_le h]
      omega

/-- **An act** uses up what the device accepts; it writes as far as there is room. -/
theorem act_eq (d : Device) (a : Act) :
    d.act a = (d.after [a], ⟨d.takes a.bytes, a.events, (d.refusal? a).map a.failure⟩) := by
  cases a with
  | prompt text =>
    rw [act, write_eq]
    simp [after, written, flushes, refusal?, Act.bytes, Act.events, Act.failure, apply_ite]
  | answer text =>
    rw [act, write_eq]
    simp [after, written, flushes, refusal?, Act.bytes, Act.events, Act.failure, apply_ite]
  | flush =>
    obtain ⟨bytes?, _ | _ | m⟩ := d <;>
      simp [act, after, written, flushes, refusal?, Act.bytes, Act.events, Act.failure,
        Transcript.empty, takes_nil]
  | read cause? =>
    simp [act, after, written, flushes, refusal?, Act.bytes, Act.events, Act.failure, takes_nil]
  | note event =>
    simp [act, after, written, flushes, refusal?, Act.bytes, Act.events, takes_nil]

/-- No read among the acts fails, and there is room for all that they write and flush. -/
structure Admits (d : Device) (acts : List Act) : Prop where
  read : ∀ cause?, .read cause? ∈ acts → cause? = none
  bytes : ∀ n, d.bytes? = some n → (written acts).length ≤ n
  flushes : ∀ m, d.flushes? = some m → Session.flushes acts ≤ m

theorem admits_nil (d : Device) : d.Admits [] :=
  ⟨fun _ h => absurd h List.not_mem_nil, fun n _ => Nat.zero_le n, fun m _ => Nat.zero_le m⟩

theorem admits_singleton : d.Admits [a] ↔ d.refusal? a = none := by
  have fields : d.Admits [a] ↔ (∀ cause?, .read cause? = a → cause? = none) ∧
      (∀ n, d.bytes? = some n → a.bytes.length ≤ n) ∧
        ∀ m, d.flushes? = some m → flushes [a] ≤ m := by
    constructor
    · rintro ⟨read, bytes, turns⟩
      rw [written_singleton] at bytes
      exact ⟨fun cause? h => read cause? (List.mem_singleton.2 h), bytes, turns⟩
    · rintro ⟨read, bytes, turns⟩
      rw [← written_singleton] at bytes
      exact ⟨fun cause? h => read cause? (List.mem_singleton.1 h), bytes, turns⟩
  rw [fields]
  obtain ⟨bytes?, flushes?⟩ := d
  cases a <;> cases bytes? <;> cases flushes? <;>
    simp [refusal?, Act.bytes, flushes, Nat.one_le_iff_ne_zero]

theorem admits_append : d.Admits (xs ++ ys) ↔ d.Admits xs ∧ (d.after xs).Admits ys := by
  constructor
  · rintro ⟨read, bytes, turns⟩
    rw [written_append, List.length_append] at bytes
    rw [flushes_append] at turns
    refine ⟨⟨?_, ?_, ?_⟩, ?_, ?_, ?_⟩
    · exact fun cause? h => read cause? (List.mem_append_left _ h)
    · exact fun n hn => Nat.le_of_add_right_le (bytes n hn)
    · exact fun m hm => Nat.le_of_add_right_le (turns m hm)
    · exact fun cause? h => read cause? (List.mem_append_right _ h)
    · intro n hn
      obtain ⟨k, hk, rfl⟩ := Option.map_eq_some_iff.1 hn
      exact Nat.le_sub_of_add_le' (bytes k hk)
    · intro m hm
      obtain ⟨k, hk, rfl⟩ := Option.map_eq_some_iff.1 hm
      exact Nat.le_sub_of_add_le' (turns k hk)
  · rintro ⟨⟨read, bytes, turns⟩, read', bytes', turns'⟩
    refine ⟨?_, ?_, ?_⟩
    · intro cause? h
      exact (List.mem_append.1 h).elim (read cause?) (read' cause?)
    -- What `xs` leave is a true difference only because `xs` fit.
    · intro n hn
      have front := bytes n hn
      have back := bytes' (n - (written xs).length) (by simp [after, hn])
      rw [written_append, List.length_append]
      omega
    · intro m hm
      have front := turns m hm
      have back := turns' (m - Session.flushes xs) (by simp [after, hm])
      rw [flushes_append]
      omega

theorem Admits.of_isPrefix (h : d.Admits ys) (hp : xs <+: ys) : d.Admits xs := by
  obtain ⟨zs, rfl⟩ := hp
  exact (admits_append.1 h).1

/-- Without limits nothing is refused but a read that fails. -/
theorem admits_unlimited :
    unlimited.Admits acts ↔ ∀ cause?, .read cause? ∈ acts → cause? = none := by
  constructor
  · exact Admits.read
  · refine fun read => ⟨read, ?_, ?_⟩
    · intro n hn
      cases hn
    · intro m hm
      cases hm

theorem Admits.unlimited (h : d.Admits acts) : unlimited.Admits acts := admits_unlimited.2 h.read

/-- Why an act fails: it is a read that fails, or there is no room for it. -/
theorem refusal?_eq_some {c : Cause} (h : d.refusal? a = some c) :
    a = .read (some c) ∨ (a = .flush ∧ c = .flushLimit ∧ d.flushes? = some 0) ∨
      c = .writeLimit ∧ unlimited.refusal? a = none ∧
        ∃ n, d.bytes? = some n ∧ n < a.bytes.length := by
  have texts (text : String)
      (ht : (if d.bytes?.any (· < (encode text).length) then some Cause.writeLimit else none) =
        some c) : c = .writeLimit ∧ ∃ n, d.bytes? = some n ∧ n < (encode text).length := by
    split at ht
    · rename_i room
      cases ht
      exact ⟨rfl, by simpa [Option.any_eq_true] using room⟩
    · cases ht
  cases a with
  | prompt text => exact .inr (.inr ⟨(texts text h).1, rfl, (texts text h).2⟩)
  | flush =>
    rw [refusal?] at h
    split at h
    · cases h
      exact .inr (.inl ⟨rfl, rfl, ‹_›⟩)
    · cases h
  | read cause? => exact .inl (congrArg _ h)
  | note event => cases h
  | answer text => exact .inr (.inr ⟨(texts text h).1, rfl, (texts text h).2⟩)

/-- What is written by an act that succeeds is all that it writes. -/
theorem takes_of_refusal?_eq_none (h : d.refusal? a = none) : d.takes a.bytes = a.bytes := by
  have room := (admits_singleton.2 h).bytes
  rw [written_singleton] at room
  obtain ⟨_ | n, flushes?⟩ := d
  · rfl
  · exact List.take_of_length_le (room n rfl)

theorem perform_cons_of_none (h : d.refusal? a = none) (acts : List Act) :
    d.perform (a :: acts) =
      Transcript.append ⟨a.bytes, a.events, none⟩ ((d.after [a]).perform acts) := by
  rw [perform, act_eq]
  simp [h, takes_of_refusal?_eq_none h]

theorem perform_cons_of_some {c : Cause} (h : d.refusal? a = some c) (acts : List Act) :
    d.perform (a :: acts) = ⟨d.takes a.bytes, a.events, some (a.failure c)⟩ := by
  rw [perform, act_eq]
  simp [h]

/-- A read that fails does so on every device. -/
theorem perform_failing_read (d : Device) (c : Cause) (acts : List Act) :
    d.perform (.read (some c) :: acts) = ⟨[], [], some (.reading c)⟩ := by
  rw [perform_cons_of_some rfl]
  show Transcript.mk (d.takes []) _ _ = _
  rw [takes_nil]
  rfl

/-! ## Acts that succeed -/

/-- **Acts succeed** if the device admits them. -/
theorem failure?_perform_eq_none_iff : (d.perform acts).failure? = none ↔ d.Admits acts := by
  induction acts generalizing d with
  | nil => exact iff_of_true rfl d.admits_nil
  | cons a acts ih =>
    rw [← List.singleton_append, admits_append, admits_singleton, List.singleton_append]
    cases h : d.refusal? a with
    | none =>
      rw [perform_cons_of_none h]
      exact ih.trans (and_iff_right rfl).symm
    | some c =>
      rw [perform_cons_of_some h]
      exact iff_of_false (by simp) (by simp)

/-- **Acts that succeed** are performed in front of those behind them, which are left with what
remains of the device. -/
theorem perform_append (h : (d.perform xs).failure? = none) (ys : List Act) :
    d.perform (xs ++ ys) =
      Transcript.append ⟨written xs, noted xs, none⟩ ((d.after xs).perform ys) := by
  induction xs generalizing d with
  | nil => rw [after_nil]; rfl
  | cons a xs ih =>
    cases hr : d.refusal? a with
    | some c =>
      rw [perform_cons_of_some hr] at h
      cases h
    | none =>
      rw [perform_cons_of_none hr] at h
      rw [List.cons_append, perform_cons_of_none hr, ih h, ← after_append, written_cons,
        noted_cons]
      simp only [Transcript.append, List.append_assoc]
      rfl

theorem perform_of_ok (h : (d.perform acts).failure? = none) :
    d.perform acts = ⟨written acts, noted acts, none⟩ := by
  have done := perform_append h []
  rw [List.append_nil] at done
  rw [done]
  simp [perform, Transcript.append, Transcript.empty]

/-- Acts that succeed leave the same on a device with limits and without. -/
theorem perform_unlimited_of_ok (h : (d.perform acts).failure? = none) :
    d.perform acts = unlimited.perform acts := by
  have free := failure?_perform_eq_none_iff.2 (failure?_perform_eq_none_iff.1 h).unlimited
  rw [perform_of_ok h, perform_of_ok free]

/-- Every act of acts that succeed is accepted where it stands. -/
theorem refusal?_of_ok (h : (d.perform ys).failure? = none) (hp : xs ++ [a] <+: ys) :
    (d.after xs).refusal? a = none := by
  have admits := (failure?_perform_eq_none_iff.1 h).of_isPrefix hp
  exact admits_singleton.1 (admits_append.1 admits).2

/-! ## Acts that fail -/

/-- **Acts that fail** have a first that fails. It writes as far as there is room. -/
theorem failure?_perform_eq_some {f : Failure} (h : (d.perform acts).failure? = some f) :
    ∃ done a c, done ++ [a] <+: acts ∧ (d.perform done).failure? = none ∧
      (d.after done).refusal? a = some c ∧ f = a.failure c ∧
        (d.perform acts).output = written done ++ (d.after done).takes a.bytes := by
  induction acts generalizing d with
  | nil => cases h
  | cons a acts ih =>
    cases hr : d.refusal? a with
    | some c =>
      rw [perform_cons_of_some hr] at h ⊢
      cases h
      refine ⟨[], a, c, ⟨acts, rfl⟩, rfl, ?_, rfl, ?_⟩
      · rwa [after_nil]
      · rw [after_nil]; rfl
    | none =>
      rw [perform_cons_of_none hr] at h ⊢
      obtain ⟨done, b, c, hp, ok, fails, rfl, output⟩ := ih h
      refine ⟨a :: done, b, c, List.prefix_cons_inj _ |>.2 hp, ?_, ?_, rfl, ?_⟩
      · rw [perform_cons_of_none hr]; exact ok
      · rwa [show a :: done = [a] ++ done from rfl, after_append]
      · rw [show a :: done = [a] ++ done from rfl, after_append, written_append, List.append_assoc,
          written_singleton, ← output]
        rfl

/-- What was written in front of an act, and what the act writes, is all that the device takes of
both. -/
theorem written_append_takes (h : (d.perform xs).failure? = none) (a : Act) :
    written xs ++ (d.after xs).takes a.bytes = d.takes (written (xs ++ [a])) := by
  have room := (failure?_perform_eq_none_iff.1 h).bytes
  rw [written_append, written_singleton]
  obtain ⟨_ | n, flushes?⟩ := d
  · rfl
  · show written xs ++ a.bytes.take (n - (written xs).length) = (written xs ++ a.bytes).take n
    rw [List.take_append, List.take_of_length_le (room n rfl)]

/-! ## Devices with limits and without -/

theorem takes_isPrefix (d : Device) (bytes : List UInt8) : d.takes bytes <+: bytes := by
  obtain ⟨_ | n, flushes?⟩ := d
  · exact List.prefix_rfl
  · exact List.take_prefix n bytes

/-- What a device accepts, one without limits accepts. -/
theorem refusal?_unlimited_of_none (h : d.refusal? a = none) : unlimited.refusal? a = none :=
  admits_singleton.1 (admits_singleton.2 h).unlimited

/-- A device writes what a device without limits writes, up to some point. -/
theorem output_perform_isPrefix (d : Device) (acts : List Act) :
    (d.perform acts).output <+: (unlimited.perform acts).output := by
  induction acts generalizing d with
  | nil => exact List.prefix_rfl
  | cons a acts ih =>
    cases hu : unlimited.refusal? a with
    | some c =>
      obtain rfl | ⟨-, -, hm⟩ | ⟨-, -, n, hn, -⟩ := refusal?_eq_some hu
      · rw [perform_failing_read]
        exact List.nil_prefix
      · cases hm
      · cases hn
    | none =>
      rw [perform_cons_of_none hu]
      cases hd : d.refusal? a with
      | some c =>
        rw [perform_cons_of_some hd]
        exact (takes_isPrefix d a.bytes).trans (List.prefix_append _ _)
      | none =>
        rw [perform_cons_of_none hd]
        exact (List.prefix_append_right_inj a.bytes).2 (ih _)

/-- **A limit on bytes alone** cuts off the output, and nothing else. -/
theorem perform_bytes (n : Nat) (acts : List Act) :
    (Device.perform ⟨some n, none⟩ acts).output = (unlimited.perform acts).output.take n ∧
      ((unlimited.perform acts).output.length ≤ n →
        Device.perform ⟨some n, none⟩ acts = unlimited.perform acts) ∧
      (n < (unlimited.perform acts).output.length →
        ∃ a ∈ acts, (Device.perform ⟨some n, none⟩ acts).failure? =
          some (a.failure .writeLimit)) := by
  induction acts generalizing n with
  | nil => exact ⟨List.take_nil.symm, fun _ => rfl, fun h => absurd h (Nat.not_lt_zero n)⟩
  | cons a acts ih =>
    cases hd : Device.refusal? ⟨some n, none⟩ a with
    | some c =>
      rw [perform_cons_of_some hd]
      obtain rfl | ⟨-, -, hm⟩ | ⟨rfl, hu, k, hk, room⟩ := refusal?_eq_some hd
      · rw [← perform_cons_of_some hd acts, perform_failing_read, perform_failing_read]
        exact ⟨List.take_nil.symm, fun _ => rfl, fun h => absurd h (Nat.not_lt_zero n)⟩
      · cases hm
      · cases hk
        rw [perform_cons_of_none hu]
        have more : n < (a.bytes ++ ((unlimited.after [a]).perform acts).output).length := by
          rw [List.length_append]; omega
        refine ⟨?_, fun h => absurd more (Nat.not_lt.2 h), fun _ => ⟨a, List.mem_cons_self, rfl⟩⟩
        exact (List.take_append_of_le_length (Nat.le_of_lt room)).symm
    | none =>
      have room : a.bytes.length ≤ n := by
        rw [← written_singleton]
        exact (admits_singleton.2 hd).bytes n rfl
      rw [perform_cons_of_none hd, perform_cons_of_none (refusal?_unlimited_of_none hd)]
      have left : Device.after ⟨some n, none⟩ [a] = ⟨some (n - a.bytes.length), none⟩ := by
        simp [after, written_singleton]
      obtain ⟨output, same, fails⟩ := ih (n - a.bytes.length)
      rw [left, show unlimited.after [a] = unlimited from rfl]
      simp only [Transcript.append, List.length_append]
      refine ⟨?_, ?_, ?_⟩
      · rw [output, List.take_append, List.take_of_length_le room]
      · intro h
        rw [same (by omega)]
      · intro h
        obtain ⟨b, hb, failure⟩ := fails (by omega)
        exact ⟨b, List.mem_cons_of_mem a hb, failure⟩

end Device

end Reckoner.Session
