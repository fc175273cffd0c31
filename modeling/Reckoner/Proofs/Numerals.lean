import Reckoner.Number.Decimal
/-!
# Which texts are numerals

A numeral is a run of digits, with or without a separator and further digits behind it, or a
separator and digits behind it.

Results:
* `ofChars?_whole`, `ofChars?_parts`: the decimal that digits denote, with or without a separator.
* `isSome_ofChars?_iff`: these are the texts that denote a decimal.
-/
namespace Reckoner.Decimal

/-- The grammar `digit+ [.,]? digit*` or `[.,] digit+`. -/
inductive IsNumeral : List Char → Prop
  | whole {digits : List Char} (some : digits ≠ []) (all : ∀ c ∈ digits, c.isDigit = true) :
    IsNumeral digits
  | parts {whole fraction : List Char} {sep : Char} (some : whole ≠ [])
    (all : ∀ c ∈ whole, c.isDigit = true) (separates : isSeparator sep = true)
    (behind : ∀ c ∈ fraction, c.isDigit = true) : IsNumeral (whole ++ sep :: fraction)
  | fraction {fraction : List Char} {sep : Char} (separates : isSeparator sep = true)
    (some : fraction ≠ []) (behind : ∀ c ∈ fraction, c.isDigit = true) :
    IsNumeral (sep :: fraction)

theorem not_isDigit_of_isSeparator {c : Char} (h : isSeparator c = true) : ¬ c.isDigit = true := by
  simp only [isSeparator, Bool.or_eq_true, beq_iff_eq] at h
  rcases h with rfl | rfl <;> decide

/-- What is read of digits alone. -/
theorem ofChars?_whole {digits : List Char} (nonempty : digits ≠ [])
    (all : ∀ c ∈ digits, c.isDigit = true) :
    ofChars? digits = some ⟨Nat.ofDigitChars 10 digits 0, 0⟩ := by
  have take := @List.takeWhile_append_of_pos _ Char.isDigit digits [] all
  have drop := @List.dropWhile_append_of_pos _ Char.isDigit digits [] all
  rw [List.append_nil, List.takeWhile_nil, List.append_nil] at take
  rw [List.append_nil, List.dropWhile_nil] at drop
  have isEmpty : digits.isEmpty = false := by simpa using nonempty
  simp only [ofChars?, take, drop, isEmpty]
  rfl

/-- What is read of digits with a separator between or beside them. -/
theorem ofChars?_parts {whole fraction : List Char} {sep : Char}
    (all : ∀ c ∈ whole, c.isDigit = true) (separates : isSeparator sep = true)
    (behind : ∀ c ∈ fraction, c.isDigit = true) (nonempty : whole ++ fraction ≠ []) :
    ofChars? (whole ++ sep :: fraction) =
      some ⟨Nat.ofDigitChars 10 (whole ++ fraction) 0, fraction.length⟩ := by
  have hs := not_isDigit_of_isSeparator separates
  have take : (whole ++ sep :: fraction).takeWhile Char.isDigit = whole := by
    rw [List.takeWhile_append_of_pos all, List.takeWhile_cons_of_neg hs, List.append_nil]
  have drop : (whole ++ sep :: fraction).dropWhile Char.isDigit = sep :: fraction := by
    rw [List.dropWhile_append_of_pos all, List.dropWhile_cons_of_neg hs]
  have digits : fraction.all Char.isDigit = true := List.all_eq_true.2 behind
  have isEmpty : (whole ++ fraction).isEmpty = false := by simpa using nonempty
  simp only [ofChars?, take, drop, separates, digits, isEmpty]
  rfl

/-- **The numerals** are the texts that denote a decimal. -/
theorem isSome_ofChars?_iff {cs : List Char} : (ofChars? cs).isSome = true ↔ IsNumeral cs := by
  constructor
  · intro h
    have split := List.takeWhile_append_dropWhile (p := Char.isDigit) (l := cs)
    have all : ∀ c ∈ cs.takeWhile Char.isDigit, c.isDigit = true :=
      List.all_eq_true.1 List.all_takeWhile
    unfold ofChars? at h
    generalize hw : cs.takeWhile Char.isDigit = whole at *
    -- Behind the digits there is nothing, or what must be a separator.
    cases hd : cs.dropWhile Char.isDigit with
    | nil =>
      rw [hd, List.append_nil] at split
      simp only [hd] at h
      have some : whole ≠ [] := by
        intro hn
        simp [hn] at h
      rw [← split]
      exact .whole some all
    | cons sep fraction =>
      rw [hd] at split
      simp only [hd] at h
      rw [Option.isSome_ite] at h
      simp only [Bool.and_eq_true, List.all_eq_true, Bool.not_eq_true',
        List.isEmpty_eq_false_iff] at h
      obtain ⟨⟨separates, behind⟩, some⟩ := h
      rw [← split]
      by_cases hn : whole = []
      · subst hn
        exact .fraction separates some behind
      · exact .parts hn all separates behind
  · intro h
    cases h with
    | whole some all =>
      rw [ofChars?_whole some all]
      rfl
    | parts some all separates behind =>
      rw [ofChars?_parts all separates behind (by simp [some])]
      rfl
    | @fraction fraction sep separates some behind =>
      have nothing : ∀ c ∈ ([] : List Char), c.isDigit = true := fun _ h => absurd h List.not_mem_nil
      have read := ofChars?_parts nothing separates behind some
      rw [List.nil_append] at read
      rw [read]
      rfl

end Reckoner.Decimal
