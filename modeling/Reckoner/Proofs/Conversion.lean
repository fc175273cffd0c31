import Reckoner.Proofs.NearestDouble
import Reckoner.Proofs.Numerals
import Reckoner.Reader.Numeral
/-!
# What a numeral is converted to

The digits of a numeral denote a rational number, with the separator as decimal point. A pending
numeral that ends is converted if its text is a numeral, and to the double nearest to that number;
any other text is reported as it is.

Results:
* `Decimal.denotes_iff`: the decimal that is read of a text has the value which its digits denote.
* `Numeral.take_pushed`: what becomes of characters that were pushed, whatever they are.
-/
namespace Reckoner

/-! ## Positional notation -/

namespace Decimal

def digitValue (c : Char) : Nat := c.toNat - '0'.toNat

/-- The value of digits in front of the separator. -/
def wholeValue : List Char → ℚ
  | [] => 0
  | c :: cs => digitValue c * 10 ^ cs.length + wholeValue cs

/-- The value of digits behind the separator. -/
def fractionValue : List Char → ℚ
  | [] => 0
  | c :: cs => (digitValue c + fractionValue cs) / 10

/-- The text is a numeral, and its digits denote the number. -/
inductive Denotes : List Char → ℚ → Prop
  | whole {digits : List Char} (some : digits ≠ []) (all : ∀ c ∈ digits, c.isDigit = true) :
    Denotes digits (wholeValue digits)
  | parts {whole fraction : List Char} {sep : Char} (some : whole ≠ [])
    (all : ∀ c ∈ whole, c.isDigit = true) (separates : isSeparator sep = true)
    (behind : ∀ c ∈ fraction, c.isDigit = true) :
    Denotes (whole ++ sep :: fraction) (wholeValue whole + fractionValue fraction)
  | fraction {fraction : List Char} {sep : Char} (separates : isSeparator sep = true)
    (some : fraction ≠ []) (behind : ∀ c ∈ fraction, c.isDigit = true) :
    Denotes (sep :: fraction) (fractionValue fraction)

/-- The value of a decimal. -/
def value (d : Decimal) : ℚ := (d.units : ℚ) / (10 ^ d.places : Nat)

theorem ofDigitChars_cons_zero (c : Char) (cs : List Char) :
    Nat.ofDigitChars 10 (c :: cs) 0 = digitValue c * 10 ^ cs.length + Nat.ofDigitChars 10 cs 0 := by
  rw [Nat.ofDigitChars_cons, Nat.ofDigitChars_eq_ofDigitChars_zero, Nat.mul_zero, Nat.zero_add,
    Nat.mul_comm]
  rfl

theorem wholeValue_eq (cs : List Char) : wholeValue cs = Nat.ofDigitChars 10 cs 0 := by
  induction cs with
  | nil => rfl
  | cons c cs ih =>
    rw [wholeValue, ih, ofDigitChars_cons_zero]
    push_cast
    rfl

theorem fractionValue_eq (cs : List Char) :
    fractionValue cs = Nat.ofDigitChars 10 cs 0 / (10 ^ cs.length : Nat) := by
  induction cs with
  | nil => simp [fractionValue]
  | cons c cs ih =>
    rw [fractionValue, ih, ofDigitChars_cons_zero, List.length_cons, Nat.pow_succ]
    push_cast
    field_simp

theorem ofDigitChars_append_div (whole fraction : List Char) :
    (Nat.ofDigitChars 10 (whole ++ fraction) 0 : ℚ) / (10 ^ fraction.length : Nat) =
      wholeValue whole + fractionValue fraction := by
  rw [Nat.ofDigitChars_append, Nat.ofDigitChars_eq_ofDigitChars_zero, wholeValue_eq,
    fractionValue_eq]
  push_cast
  field_simp

/-- A text denotes the value of the decimal that is read of it. -/
theorem ofChars?_of_denotes {cs : List Char} {q : ℚ} (h : Denotes cs q) :
    ∃ d, ofChars? cs = some d ∧ d.value = q := by
  cases h with
  | whole some all =>
    refine ⟨_, ofChars?_whole some all, ?_⟩
    rw [value, wholeValue_eq, Nat.pow_zero, Nat.cast_one, div_one]
  | parts some all separates behind =>
    exact ⟨_, ofChars?_parts all separates behind (by simp [some]), ofDigitChars_append_div _ _⟩
  | @fraction fraction sep separates some behind =>
    have nothing : ∀ c ∈ ([] : List Char), c.isDigit = true := fun _ h => absurd h List.not_mem_nil
    refine ⟨_, ofChars?_parts nothing separates behind some, ?_⟩
    exact (ofDigitChars_append_div [] fraction).trans (zero_add _)

theorem isNumeral_iff_denotes {cs : List Char} : IsNumeral cs ↔ ∃ q, Denotes cs q := by
  constructor
  · intro h
    cases h with
    | whole some all => exact ⟨_, .whole some all⟩
    | parts some all separates behind => exact ⟨_, .parts some all separates behind⟩
    | fraction separates some behind => exact ⟨_, .fraction separates some behind⟩
  · rintro ⟨q, h⟩
    cases h with
    | whole some all => exact .whole some all
    | parts some all separates behind => exact .parts some all separates behind
    | fraction separates some behind => exact .fraction separates some behind

/-- **A decimal that is read of a text** has the value that its digits denote, and no other. -/
theorem denotes_iff {cs : List Char} {d : Decimal} (h : ofChars? cs = some d) (q : ℚ) :
    Denotes cs q ↔ q = d.value := by
  have unique {r : ℚ} (hr : Denotes cs r) : r = d.value := by
    obtain ⟨e, he, rfl⟩ := ofChars?_of_denotes hr
    rw [h] at he
    cases he
    rfl
  constructor
  · exact unique
  · rintro rfl
    obtain ⟨r, hr⟩ := isNumeral_iff_denotes.1 (isSome_ofChars?_iff.1 (by rw [h]; rfl))
    rwa [← unique hr]

/-- The magnitude of a decimal is the double nearest to its value, and there is no other. -/
theorem roundsTo_iff (d : Decimal) (x : Float) :
    RoundsTo d.value x ↔ x = Signed.toFloat ⟨false, d.magnitude⟩ := by
  have rounds : RoundsTo d.value (Signed.toFloat ⟨false, d.magnitude⟩) :=
    roundsTo_nearest (Nat.pow_pos (by decide))
  constructor
  · exact fun h => rounds.unique h
  · rintro rfl
    exact rounds

end Decimal

/-! ## The pending numeral -/

namespace Numeral
open Decimal (IsNumeral Denotes)

/-- Pushes characters, each at its position. -/
def pushAll (n : Numeral) (pushed : List (Char × Position)) : Numeral :=
  pushed.foldl (fun n x => n.push x.1 x.2) n

theorem pushAll_cons (n : Numeral) (x : Char × Position) (pushed : List (Char × Position)) :
    n.pushAll (x :: pushed) = (n.push x.1 x.2).pushAll pushed := rfl

theorem text_pushAll (n : Numeral) (pushed : List (Char × Position)) :
    (n.pushAll pushed).text.toList = n.text.toList ++ pushed.map Prod.fst := by
  induction pushed generalizing n with
  | nil => simp [pushAll]
  | cons x pushed ih =>
    rw [pushAll_cons, ih, push, String.toList_push]
    simp

theorem negative_pushAll (n : Numeral) (pushed : List (Char × Position)) :
    (n.pushAll pushed).negative = n.negative := by
  induction pushed generalizing n with
  | nil => rfl
  | cons x pushed ih => rw [pushAll_cons, ih, push]

/-- What comes of the text of a numeral that ends, with a sign or without. -/
structure Converts (text : List Char) (negative : Bool)
    (result : Except ReadError (Option Float)) : Prop where
  /-- Just the numerals are converted. -/
  succeeds_iff : (∃ x, result = .ok (some x)) ↔ IsNumeral text
  /-- The digits denote one number, to which one double is nearest, and a sign negates that. -/
  value : ∀ x, result = .ok (some x) → ∃ q y, (∀ r, Denotes text r ↔ r = q) ∧
    (∀ z, RoundsTo q z ↔ z = y) ∧ x = if negative then -y else y
  /-- The double is a number, and has the sign, also if it is zero. -/
  sign : ∀ x, result = .ok (some x) →
    x.isNaN = false ∧ (2 ^ 63 ≤ x.toBits.toNat ↔ negative = true)
  malformed : ¬ IsNumeral text → ∃ span, result = .error (.malformed (String.ofList text) span)

theorem take_of_ofChars?_some {n : Numeral} (nonempty : n.text ≠ "") {d : Decimal}
    (h : Decimal.ofChars? n.text.toList = some d) :
    n.take.2 = .ok (some (Signed.toFloat ⟨n.negative, d.magnitude⟩)) := by
  rw [take, if_neg nonempty, value?, h]
  rfl

theorem take_of_ofChars?_none {n : Numeral} (nonempty : n.text ≠ "")
    (h : Decimal.ofChars? n.text.toList = none) :
    n.take.2 = .error (.malformed n.text (n.span?.getD (Span.single 0))) := by
  rw [take, if_neg nonempty, value?, h]
  rfl

/-- A sign negates the double without it. -/
theorem toFloat_eq_ite (negative : Bool) (m : Magnitude) :
    Signed.toFloat ⟨negative, m⟩ =
      if negative then -Signed.toFloat ⟨false, m⟩ else Signed.toFloat ⟨false, m⟩ := by
  cases negative with
  | false => rfl
  | true => exact (Signed.neg_toFloat m).symm

theorem converts_take {n : Numeral} (nonempty : n.text ≠ "") :
    Converts n.text.toList n.negative n.take.2 := by
  cases h : Decimal.ofChars? n.text.toList with
  | none =>
    have fails := take_of_ofChars?_none nonempty h
    have not_numeral : ¬ IsNumeral n.text.toList := by
      rw [← Decimal.isSome_ofChars?_iff, h]
      simp
    rw [fails]
    refine ⟨?_, ?_, ?_, fun _ => ⟨_, by rw [String.ofList_toList]⟩⟩
    · simp [not_numeral]
    · intro x hx
      cases hx
    · intro x hx
      cases hx
  | some d =>
    have succeeds := take_of_ofChars?_some nonempty h
    have numeral : IsNumeral n.text.toList := by
      rw [← Decimal.isSome_ofChars?_iff, h]
      rfl
    rw [succeeds]
    refine ⟨⟨fun _ => numeral, fun _ => ⟨_, rfl⟩⟩, ?_, ?_, fun hn => absurd numeral hn⟩
    · intro x hx
      cases hx
      exact ⟨d.value, _, Decimal.denotes_iff h, d.roundsTo_iff, toFloat_eq_ite _ _⟩
    · intro x hx
      cases hx
      have sign := Signed.le_bits ⟨n.negative, d.magnitude⟩
      refine ⟨Signed.isNaN_toFloat _, ?_⟩
      rw [Signed.toBits_toFloat]
      exact ⟨fun le => sign.symm.trans (decide_eq_true le), fun hn => of_decide_eq_true (sign.trans hn)⟩

/-- **Characters that were pushed** are converted, if they make up a numeral, to the double nearest to
what their digits denote, negated if a sign was pending, and are reported as they are otherwise. -/
theorem take_pushed {n : Numeral} (h : n.text = "") {pushed : List (Char × Position)}
    (nonempty : pushed ≠ []) :
    Converts (pushed.map Prod.fst) n.negative (n.pushAll pushed).take.2 := by
  have text : (n.pushAll pushed).text.toList = pushed.map Prod.fst := by
    rw [text_pushAll, h]
    rfl
  have some : (n.pushAll pushed).text ≠ "" := by
    intro empty
    rw [empty] at text
    exact nonempty (List.map_eq_nil_iff.1 text.symm)
  have converts := converts_take some
  rwa [text, negative_pushAll] at converts

theorem take_pushed_comma :
    (⟨"", none, true⟩ : Numeral).text = "" ∧ [(',', 4), ('5', 9)] ≠ ([] : List (Char × Position)) ∧
      Converts [',', '5'] true
        ((⟨"", none, true⟩ : Numeral).pushAll [(',', 4), ('5', 9)]).take.2 :=
  ⟨rfl, by decide, @take_pushed ⟨"", none, true⟩ rfl [(',', 4), ('5', 9)] (by decide)⟩

end Numeral

end Reckoner
