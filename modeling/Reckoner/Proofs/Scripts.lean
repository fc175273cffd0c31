import Reckoner.Proofs.Lines
import Reckoner.Proofs.Performance
/-!
# Scripts line by line

The script of a session asks for a line, reads it and answers it, and goes on with the script of the
lines behind. If the input is cut short, the script is that of the whole input up to the first read
that would go past the cut, and that read fails.

Results:
* `script_append_lineFeed`: the script of a line and what is behind it.
* `script_whole`: the script of a whole input, turn by turn.
* `exists_cutAt`: what the script of an input that is cut short has in common with that of the whole.
-/
namespace Reckoner.Session

variable {o : Options} {line bytes : List UInt8}

/-! ## What is in a script -/

/-- An answer is made of notes and of texts that are written. -/
theorem mem_reply {a : Act} {expression : String} (h : a ∈ reply o expression) :
    (∃ event, a = .note event) ∨ ∃ text, a = .answer text := by
  rcases List.mem_append.1 h with hn | ha
  · obtain ⟨event, -, rfl⟩ := List.mem_map.1 hn
    exact .inl ⟨event, rfl⟩
  · split at ha
    · simp only [List.mem_cons, List.not_mem_nil, or_false] at ha
      obtain rfl | rfl := ha
      · exact .inl ⟨_, rfl⟩
      · exact .inr ⟨_, rfl⟩
    · simp only [List.mem_append, List.mem_ite_nil_right, List.mem_singleton] at ha
      obtain ⟨-, rfl⟩ | rfl := ha
      · exact .inr ⟨_, rfl⟩
      · exact .inr ⟨_, rfl⟩

theorem read_not_mem_ask (cause? : Option Cause) : .read cause? ∉ ask o := by
  simp [ask]

theorem read_not_mem_reply (cause? : Option Cause) (expression : String) :
    .read cause? ∉ reply o expression := by
  intro h
  rcases mem_reply h with ⟨event, e⟩ | ⟨text, e⟩ <;> cases e

/-- The script of a line that is read: it is answered. -/
def turn (o : Options) (text : String) : List Act := ask o ++ .read none :: reply o (trimLine text)

theorem cause?_of_mem_turn {cause? : Option Cause} {text : String}
    (h : .read cause? ∈ turn o text) : cause? = none := by
  rcases List.mem_append.1 h with ha | hr
  · exact absurd ha (read_not_mem_ask cause?)
  · rcases List.mem_cons.1 hr with e | hr
    · cases e; rfl
    · exact absurd hr (read_not_mem_reply cause? _)

theorem reads_turn (text : String) : reads (turn o text) = 1 := by
  have answered : reads (reply o (trimLine text)) = 0 := by
    refine List.countP_eq_zero.2 ?_
    intro a ha
    rcases mem_reply ha with ⟨event, rfl⟩ | ⟨text, rfl⟩ <;> exact Bool.false_ne_true
  rw [turn, List.append_cons, reads_append, answered]
  rfl

/-! ## The script of a line -/

theorem respond_line (h : line ≠ []) :
    respond o (.ok line) =
      match decode? line with
      | none => ([.read (some .notText)], false)
      | some text => (.read none :: reply o (trimLine text), true) := by
  cases hd : decode? line <;> simp [respond, h, hd]

/-- **A line** is asked for, read and answered, and the script goes on behind it; if the line is no
text, the script ends there. -/
theorem script_append_lineFeed (h : lineFeed ∉ line) (isCut : Bool) :
    script o ⟨line ++ lineFeed :: bytes, isCut⟩ =
      match decode? (line ++ [lineFeed]) with
      | none => ask o ++ [.read (some .notText)]
      | some text => turn o text ++ script o ⟨bytes, isCut⟩ := by
  have next : readNext isCut ((line ++ [lineFeed]) :: lines bytes) = .ok (line ++ [lineFeed]) := by
    rw [readNext, isTerminated_concat, Bool.not_true, Bool.and_false, if_neg Bool.false_ne_true]
  rw [script, lines_append_lineFeed h, scriptOfLines, next,
    respond_line (List.append_ne_nil_of_right_ne_nil line (List.cons_ne_nil _ _))]
  cases decode? (line ++ [lineFeed]) with
  | none => exact List.append_nil _
  | some text =>
    simp only [turn, List.append_assoc]
    rfl

theorem script_nil (o : Options) : script o ⟨[], false⟩ = ask o ++ [.read none] := rfl

/-- Input that is cut before the first line feed cannot be read. -/
theorem script_cut (h : lineFeed ∉ bytes) :
    script o ⟨bytes, true⟩ = ask o ++ [.read (some .readLimit)] := by
  by_cases he : bytes = []
  · subst he; rfl
  · rw [script, lines_of_not_mem h he, scriptOfLines, readNext, isTerminated_of_not_mem h]
    exact List.append_nil _

/-- Whatever is given, the read that gives it comes first. -/
theorem respond_eq (o : Options) (given : Except Cause (List UInt8)) :
    ∃ cause? rest, (respond o given).1 = .read cause? :: rest := by
  cases given with
  | error cause => exact ⟨some cause, [], rfl⟩
  | ok line =>
    by_cases h : line = []
    · subst h; exact ⟨none, [], rfl⟩
    · rw [respond_line h]
      cases decode? line with
      | none => exact ⟨some .notText, [], rfl⟩
      | some text => exact ⟨none, _, rfl⟩

/-- Every script asks first, and reads then. -/
theorem script_eq (o : Options) (input : Input) :
    ∃ cause? rest, script o input = ask o ++ .read cause? :: rest := by
  rw [script]
  cases lines input.bytes with
  | nil =>
    obtain ⟨cause?, rest, h⟩ := respond_eq o (readNext input.isCut [])
    exact ⟨cause?, rest, by rw [scriptOfLines, h]⟩
  | cons line behind =>
    obtain ⟨cause?, rest, h⟩ := respond_eq o (readNext input.isCut (line :: behind))
    exact ⟨cause?, _, by rw [scriptOfLines, h, List.append_assoc, List.cons_append]⟩

/-- **A session whose input is whole** takes turns: for each line it prompts, flushes, reads and
answers. Then it prompts, flushes and reads once more, which fails only if there is a line that is no
text. -/
theorem script_whole (o : Options) (bytes : List UInt8) :
    ∃ (texts : List String) (cause? : Option Cause), (cause? = none ∨ cause? = some .notText) ∧
      script o ⟨bytes, false⟩ = texts.flatMap (turn o) ++ (ask o ++ [.read cause?]) := by
  simp only [script]
  induction lines bytes with
  | nil => exact ⟨[], none, .inl rfl, rfl⟩
  | cons line rest ih =>
    have next : readNext false (line :: rest) = .ok line := rfl
    rw [scriptOfLines, next]
    by_cases he : line = []
    · subst he; exact ⟨[], none, .inl rfl, rfl⟩
    · rw [respond_line he]
      cases decode? line with
      | none => exact ⟨[], some .notText, .inr rfl, List.append_nil _⟩
      | some text =>
        obtain ⟨texts, cause?, ends, rest⟩ := ih
        refine ⟨text :: texts, cause?, ends, ?_⟩
        rw [List.flatMap_cons, turn]
        simp only [if_true, rest, List.append_assoc, List.cons_append]

theorem cause?_of_mem_script {cause? : Option Cause} (h : .read cause? ∈ script o ⟨bytes, false⟩) :
    cause? = none ∨ cause? = some .notText := by
  obtain ⟨texts, last, ends, split⟩ := script_whole o bytes
  rw [split] at h
  rcases List.mem_append.1 h with ht | hl
  · obtain ⟨text, -, ht⟩ := List.mem_flatMap.1 ht
    exact .inl (cause?_of_mem_turn ht)
  · rcases List.mem_append.1 hl with ha | hr
    · exact absurd ha (read_not_mem_ask cause?)
    · cases List.mem_singleton.1 hr
      exact ends

/-! ## Input that is cut short -/

/-- The script of an input that is cut short is that of the whole input, up to a read that fails. It
is the first that needs more line feeds than there are in front of the cut, or one of a line that is
no text. -/
structure CutAt (o : Options) (bytes : List UInt8) (limit : Nat) (done : List Act)
    (cause? : Option Cause) (c : Cause) : Prop where
  limited : script o (.limited bytes (some limit)) = done ++ [.read (some c)]
  whole : done ++ [.read cause?] <+: script o ⟨bytes, false⟩
  answered : ∀ cause?, .read cause? ∈ done → cause? = none
  lines : reads done ≤ (bytes.take limit).count lineFeed
  cause : (if (bytes.take limit).count lineFeed ≤ reads done then some .readLimit else cause?) = some c

/-- Without a line feed in front of the cut nothing can be read. -/
theorem cutAt_of_not_mem {limit : Nat} (h : lineFeed ∉ bytes.take limit) :
    ∃ cause?, CutAt o bytes limit (ask o) cause? .readLimit := by
  obtain ⟨cause?, rest, whole⟩ := script_eq o ⟨bytes, false⟩
  refine ⟨cause?, script_cut h, ⟨rest, ?_⟩, ?_, Nat.zero_le _, ?_⟩
  · rw [whole, List.append_assoc]; rfl
  · exact fun cause? hm => absurd hm (read_not_mem_ask cause?)
  · rw [List.count_eq_zero.2 h, if_pos (Nat.zero_le _)]

section
variable {limit : Nat}

theorem take_append_lineFeed (line bytes : List UInt8) (limit : Nat) :
    (line ++ lineFeed :: bytes).take (line.length + 1 + limit) =
      line ++ lineFeed :: bytes.take limit := by
  rw [Nat.add_assoc, Nat.add_comm 1, List.take_length_add_append, List.take_succ_cons]

theorem count_lineFeed (h : lineFeed ∉ line) (bytes : List UInt8) :
    (line ++ lineFeed :: bytes).count lineFeed = bytes.count lineFeed + 1 := by
  rw [List.count_append, List.count_eq_zero.2 h, List.count_cons_self, Nat.zero_add]

/-- A line in front of the cut that is no text fails as it does in the whole input. -/
theorem cutAt_of_notText (h : lineFeed ∉ line) (hd : decode? (line ++ [lineFeed]) = none) :
    CutAt o (line ++ lineFeed :: bytes) (line.length + 1 + limit) (ask o) (some .notText)
      .notText := by
  have same (bytes : List UInt8) (isCut : Bool) :
      script o ⟨line ++ lineFeed :: bytes, isCut⟩ = ask o ++ [.read (some .notText)] := by
    rw [script_append_lineFeed h, hd]
  constructor
  · rw [Input.limited, take_append_lineFeed, same]
  · exact ⟨[], by rw [same, List.append_nil]⟩
  · exact fun cause? hm => absurd hm (read_not_mem_ask cause?)
  · exact Nat.zero_le _
  · rw [take_append_lineFeed, count_lineFeed h]
    exact if_neg (Nat.not_succ_le_zero _)

/-- A line in front of the cut is answered as in the whole input. -/
theorem cutAt_turn {text : String} {done : List Act} {cause? : Option Cause} {c : Cause}
    (h : lineFeed ∉ line) (hd : decode? (line ++ [lineFeed]) = some text)
    (rest : CutAt o bytes limit done cause? c) :
    CutAt o (line ++ lineFeed :: bytes) (line.length + 1 + limit) (turn o text ++ done) cause? c := by
  have lines := rest.lines
  have cause := rest.cause
  constructor
  · have limited := rest.limited
    rw [Input.limited] at limited
    rw [Input.limited, take_append_lineFeed, script_append_lineFeed h, hd]
    simp only [limited, List.append_assoc]
  · rw [script_append_lineFeed h, hd, List.append_assoc]
    exact (List.prefix_append_right_inj _).2 rest.whole
  · intro cause? hm
    rcases List.mem_append.1 hm with ht | hr
    · exact cause?_of_mem_turn ht
    · exact rest.answered cause? hr
  · rw [take_append_lineFeed, count_lineFeed h, reads_append, reads_turn]
    omega
  · rw [take_append_lineFeed, count_lineFeed h, reads_append, reads_turn, Nat.add_comm 1]
    simpa only [Nat.add_le_add_iff_right] using cause

end

/-- **A cut** is met at some read, wherever it is. -/
theorem exists_cutAt (o : Options) (bytes : List UInt8) (limit : Nat) :
    ∃ done cause? c, CutAt o bytes limit done cause? c := by
  induction bytes using separated_induction lineFeed generalizing limit with
  | last bytes h =>
    obtain ⟨cause?, cut⟩ := cutAt_of_not_mem (fun hm => h (List.mem_of_mem_take hm))
    exact ⟨_, _, _, cut⟩
  | next line bytes h ih =>
    by_cases hk : limit ≤ line.length
    · have front : lineFeed ∉ (line ++ lineFeed :: bytes).take limit := by
        rw [List.take_append_of_le_length hk]
        exact fun hm => h (List.mem_of_mem_take hm)
      obtain ⟨cause?, cut⟩ := cutAt_of_not_mem front
      exact ⟨_, _, _, cut⟩
    · obtain ⟨k, rfl⟩ := Nat.exists_eq_add_of_le (Nat.lt_of_not_le hk)
      cases hd : decode? (line ++ [lineFeed]) with
      | none => exact ⟨_, _, _, cutAt_of_notText h hd⟩
      | some text =>
        obtain ⟨done, cause?, c, rest⟩ := ih k
        exact ⟨_, _, _, cutAt_turn h hd rest⟩

end Reckoner.Session
