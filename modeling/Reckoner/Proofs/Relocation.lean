import Reckoner.Proofs.Recast
/-!
# Reading at other positions

Positions are only reported, never looked at. If they are moved so that their order is kept, and
from the next character on neighbours stay neighbours, then reading goes on as before, and reports
the positions that they are moved to.

Results:
* `Recast.faithful_moving`: a text at other positions is the text, written differently.
* `Stack.feed_moving`, `Stack.readAll_moving`: a text at other positions.
-/
namespace Reckoner

/-- Positions keep their order, and from `p` on neighbours stay neighbours. -/
structure Relocates (φ : Nat → Nat) (p : Nat) : Prop where
  mono : ∀ {i j : Nat}, i ≤ j → φ i ≤ φ j
  succ : ∀ {i : Nat}, p ≤ i → φ (i + 1) = φ i + 1

theorem relocates_add (k p : Nat) : Relocates (· + k) p :=
  ⟨fun h => Nat.add_le_add_right h k, fun _ => Nat.add_right_comm _ _ _⟩

/-! ## What is moved -/

namespace Span

/-- The span from where the first character is moved to where the last one is. -/
def relocate (φ : Nat → Nat) (s : Span) : Span := ⟨φ s.start, φ (s.stop - 1) + 1⟩

theorem relocate_extendTo {φ : Nat → Nat} (mono : ∀ {i j : Nat}, i ≤ j → φ i ≤ φ j) (s : Span)
    (p : Nat) : (s.extendTo p).relocate φ = (s.relocate φ).extendTo (φ p) := by
  obtain ⟨start, stop⟩ := s
  simp only [relocate, extendTo, mk.injEq, true_and]
  by_cases h : stop ≤ p + 1
  · have le : φ (stop - 1) ≤ φ p := mono (Nat.sub_le_of_le_add h)
    rw [Nat.max_eq_right h, Nat.max_eq_right (Nat.succ_le_succ le), Nat.add_sub_cancel]
  · have lt : p < stop := Nat.lt_of_succ_lt (Nat.lt_of_not_le h)
    have le : φ p ≤ φ (stop - 1) := mono (Nat.le_sub_one_of_lt lt)
    rw [Nat.max_eq_left (Nat.le_of_not_le h), Nat.max_eq_left (Nat.succ_le_succ le)]

end Span

def ReadError.relocate (φ : Nat → Nat) : ReadError → ReadError
  | unexpected c p => unexpected c (φ p)
  | malformed text span => malformed text (span.relocate φ)
  | unclosed depth => unclosed depth
  | finished => finished

namespace Recast

/-- The same text at other positions. -/
def moving (φ : Nat → Nat) : Recast := ⟨id, id, φ, Span.relocate φ⟩

theorem faithful_moving {φ : Nat → Nat} {p : Nat} (h : Relocates φ p) : (moving φ).Faithful p where
  accepts _ := rfl
  same _ := rfl
  push _ _ := rfl
  text_eq_empty _ := Iff.rfl
  denotes _ := rfl
  single _ := rfl
  extendTo := Span.relocate_extendTo h.mono
  succ := h.succ

end Recast

theorem ReadError.recast_moving (φ : Nat → Nat) (e : ReadError) :
    e.recast (.moving φ) = e.relocate φ := by
  cases e <;> rfl

/-! ## Stacks -/

namespace Stack

variable {φ : Nat → Nat} {m : Stack}

theorem feed_moving (h : m.Located) (hf : m.finished = false) (hφ : Relocates φ m.position)
    (cs : List Char) :
    (feed cs (m.recast (.moving φ))).toExcept =
      recasted (.moving φ) (recast (.moving φ)) (feed cs m).toExcept := by
  have read := feed_recast h hf (Recast.faithful_moving hφ) cs
  rwa [show cs.map (Recast.moving φ).char = cs from List.map_id cs] at read

theorem readAll_moving (h : m.Located) (hf : m.finished = false) (hφ : Relocates φ m.position)
    (cs : List Char) :
    readAll cs (m.recast (.moving φ)) =
      recasted (.moving φ) (recast (.moving φ)) (readAll cs m) := by
  have read := readAll_recast h hf (Recast.faithful_moving hφ) cs
  rwa [show cs.map (Recast.moving φ).char = cs from List.map_id cs] at read

end Stack

end Reckoner
