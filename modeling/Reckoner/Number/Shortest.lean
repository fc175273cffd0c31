import Reckoner.Number.Decimal
/-!
# The shortest decimal of a magnitude

Of the decimals that are read as a given finite magnitude, the one with the fewest digits, and of
those the nearest. The grid of step `10^e` holds the decimals with no digit behind the place `e`.
On each grid only the two points around the value can be nearest to it, and the coarsest grid with
such a point that reads back gives the answer.

Results:
* `magnitude_shortest`: the shortest decimal reads back, whatever the magnitude.
-/
namespace Reckoner

namespace Magnitude

/-- The largest multiple of `10^e` that is at most the value, as a multiple. -/
def gridFloor (m : Magnitude) (e : Int) : Nat :=
  m.units * 10 ^ (-e).toNat / (one * 10 ^ e.toNat)

/-- The point of index `n` on the grid of step `10^e`. -/
def gridPoint (n : Nat) (e : Int) : Decimal := ⟨n * 10 ^ e.toNat, (-e).toNat⟩

/-- Whether the value lies nearer to the grid point below it than to the one above. -/
def nearerBelow (m : Magnitude) (e : Int) : Bool :=
  2 * (m.units * 10 ^ (-e).toNat % (one * 10 ^ e.toNat)) < one * 10 ^ e.toNat

/-- The point of the grid of step `10^e` that is nearest to the value among those which read back;
a value halfway between two goes to the upper one. -/
def onGrid? (m : Magnitude) (e : Int) : Option Decimal :=
  let lower := gridPoint (m.gridFloor e) e
  let upper := gridPoint (m.gridFloor e + 1) e
  if lower.magnitude = m then
    if upper.magnitude = m && !m.nearerBelow e then some upper else some lower
  else if upper.magnitude = m then some upper
  else none

/-- A place in front of the first digit of the value. -/
def leadingPlace (m : Magnitude) : Int :=
  if one ≤ m.units then (Nat.toDigits 10 (m.units / one)).length
  else 1 - (Nat.toDigits 10 (one / m.units)).length

/-- All digits of the value: it is a whole number of steps, and `2^-k` has `k` places. -/
def exact (m : Magnitude) : Decimal := ⟨m.units * 5 ^ stepExponent, stepExponent⟩

/-- Seventeen digits always suffice, so the exact value is never asked for. -/
def shortest (m : Magnitude) : Decimal :=
  ((List.range 18).findSome? fun i : Nat => m.onGrid? (m.leadingPlace - i)).getD m.exact

/-! ## Reading back -/

theorem magnitude_exact (m : Magnitude) : m.exact.magnitude = m := by
  have : 10 ^ stepExponent = one * 5 ^ stepExponent := by rw [one, ← Nat.mul_pow]
  rw [exact, Decimal.magnitude, this, nearest_mul_mul (Nat.pow_pos (by decide)), nearest_units]

theorem magnitude_onGrid? {m : Magnitude} {e : Int} {d : Decimal} (h : m.onGrid? e = some d) :
    d.magnitude = m := by
  simp only [onGrid?] at h
  split at h
  · split at h <;> cases h <;> simp_all
  · split at h <;> cases h; assumption

theorem magnitude_shortest (m : Magnitude) : m.shortest.magnitude = m := by
  unfold shortest
  cases h : (List.range 18).findSome? fun i : Nat => m.onGrid? (m.leadingPlace - i) with
  | none => exact m.magnitude_exact
  | some d =>
    obtain ⟨i, -, hi⟩ := List.exists_of_findSome?_eq_some h
    exact magnitude_onGrid? hi

end Magnitude

end Reckoner
