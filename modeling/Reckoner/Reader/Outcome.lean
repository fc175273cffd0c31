import Reckoner.Reader.Event
/-!
# Outcomes

What a step of reading leaves behind: the state, the events on the way, and the error that stopped
it, if one did. A step that fails has a state too, from which reading can go on.

Results:
* `done_andThen`, `andThen_assoc`: steps are put together as their effects are.
-/
namespace Reckoner

structure Outcome (σ : Type) where
  state : σ
  events : List Event
  error? : Option ReadError
deriving DecidableEq

namespace Outcome

variable {σ τ : Type}

def done (s : σ) : Outcome σ := ⟨s, [], none⟩

def failed (s : σ) (e : ReadError) : Outcome σ := ⟨s, [], some e⟩

/-- The same step, seen as a step of something larger. -/
def map (f : σ → τ) (o : Outcome σ) : Outcome τ := ⟨f o.state, o.events, o.error?⟩

/-- Goes on from the state, unless the step failed. -/
def andThen (o : Outcome σ) (next : σ → Outcome σ) : Outcome σ :=
  match o.error? with
  | some _ => o
  | none => { next o.state with events := o.events ++ (next o.state).events }

/-- The state of a step that did not fail. -/
def toExcept (o : Outcome σ) : Except ReadError σ :=
  match o.error? with
  | some e => .error e
  | none => .ok o.state

@[simp] theorem done_andThen (s : σ) (next : σ → Outcome σ) : (done s).andThen next = next s := rfl

@[simp] theorem failed_andThen (s : σ) (e : ReadError) (next : σ → Outcome σ) :
    (failed s e).andThen next = failed s e := rfl

theorem andThen_assoc (o : Outcome σ) (f g : σ → Outcome σ) :
    (o.andThen f).andThen g = o.andThen fun s => (f s).andThen g := by
  obtain ⟨s, events, _ | e⟩ := o
  · simp only [andThen]
    cases h : (f s).error? <;> simp [h]
  · rfl

end Outcome

end Reckoner
