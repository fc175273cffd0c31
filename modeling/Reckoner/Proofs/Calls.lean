import Reckoner.Proofs.Frames
import Reckoner.Reader.Basic
/-!
# Calls on a reader

A reader is used by calls: single characters, texts, the end. Calls may fail, and others may follow
all the same. A *session* is any sequence of calls; what is shown of all sessions is shown of one
call at a time.

Results:
* `session_map`: if a function takes one machine to another call by call, it does so for sessions.
-/
namespace Reckoner

inductive Call where
  | char (c : Char)
  | feed (text : String)
  | finish
deriving DecidableEq

namespace Call

variable {σ τ : Type}

/-- Makes the calls in order, whether or not they fail: what each of them reports, and the state
that is left. -/
def session (perform : Call → σ → Outcome σ) :
    List Call → σ → List (List Event × Option ReadError) × σ
  | [], s => ([], s)
  | call :: calls, s =>
    let later := session perform calls (perform call s).state
    ((perform call s).report :: later.1, later.2)

theorem session_map {P : σ → Prop} {perform : Call → σ → Outcome σ} {perform' : Call → τ → Outcome τ}
    {g : σ → τ} (keep : ∀ call s, P s → P (perform call s).state)
    (sim : ∀ call s, P s → perform' call (g s) = (perform call s).map g)
    (calls : List Call) {s : σ} (h : P s) :
    session perform' calls (g s) =
      ((session perform calls s).1, g (session perform calls s).2) := by
  induction calls generalizing s with
  | nil => rfl
  | cons call calls ih =>
    have next := ih (keep call s h)
    simp only [session, sim call s h, Outcome.report_map]
    rw [show ((perform call s).map g).state = g (perform call s).state from rfl, next]

end Call

namespace Reader

def perform : Call → Reader → Outcome Reader
  | .char c, r => r.step c
  | .feed text, r => feed text.toList r
  | .finish, r => r.finish

/-! ## What a reader gets to hear -/

/-- The characters of a text that reach an unfinished reader: those up to and including the first
that fails. -/
def heardOf : List Char → Reader → List Char
  | [], _ => []
  | c :: cs, r =>
    if r.isFinished then []
    else c :: match (r.step c).error? with
      | some _ => []
      | none => heardOf cs (r.step c).state

/-- The characters of a call that reach an unfinished reader. -/
def heardIn : Call → Reader → List Char
  | .char c, r => heardOf [c] r
  | .feed text, r => heardOf text.toList r
  | .finish, _ => []

/-- The characters of a session that reach an unfinished reader. -/
def heard : List Call → Reader → List Char
  | [], _ => []
  | call :: calls, r => heardIn call r ++ heard calls (r.perform call).state

/-- The number of open groups, counted over all characters: one more at `(`, one less at `)` unless
there is none. -/
def openGroups (cs : List Char) : Nat :=
  cs.foldl (fun d c => if c = '(' then d + 1 else if c = ')' then d - 1 else d) 0

end Reader

end Reckoner
