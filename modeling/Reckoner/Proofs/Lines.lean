import Reckoner.Session.Transcript
import Mathlib.Data.List.Basic
/-!
# Lines and their bytes

A line reaches to the first line feed. In UTF-8 no character but the line feed has a byte that looks
like one, so the lines of the bytes of a text are the bytes of the lines of the text.

Results:
* `separated_induction`: an induction over the pieces that a separator divides a list into.
* `lines_append_lineFeed`: a line reaches to the first line feed.
* `decode?_encode`: the bytes of a text are read as that text.
* `lineFeed_mem_encode_iff`: where a line feed stands among the bytes of a text, it stands in the text.
-/
namespace Reckoner.Session

/-- An induction over the pieces that a separator divides a list into. -/
theorem separated_induction {α : Type} [DecidableEq α] (x : α) {P : List α → Prop}
    (last : ∀ xs, x ∉ xs → P xs) (next : ∀ xs ys, x ∉ xs → P ys → P (xs ++ x :: ys)) (xs : List α) :
    P xs := by
  by_cases h : x ∈ xs
  · obtain ⟨piece, ys, split, hx⟩ := List.eq_append_cons_of_mem h
    have shorter : ys.length < xs.length := by
      rw [split, List.length_append, List.length_cons]; omega
    rw [split]
    exact next piece ys hx (separated_induction x last next ys)
  · exact last xs h
termination_by xs.length

/-! ## Lines of bytes -/

section
variable {line bytes : List UInt8}

theorem lines_of_not_mem (h : lineFeed ∉ bytes) (some : bytes ≠ []) : lines bytes = [bytes] := by
  induction bytes with
  | nil => exact absurd rfl some
  | cons b bs ih =>
    rw [List.mem_cons, not_or] at h
    rw [lines, if_neg (Ne.symm h.1)]
    by_cases he : bs = []
    · subst he; rfl
    · rw [ih h.2 he]

/-- A line reaches to the first line feed. -/
theorem lines_append_lineFeed (h : lineFeed ∉ line) (bytes : List UInt8) :
    lines (line ++ lineFeed :: bytes) = (line ++ [lineFeed]) :: lines bytes := by
  induction line with
  | nil => rw [List.nil_append, lines, if_pos rfl]; rfl
  | cons b bs ih =>
    rw [List.mem_cons, not_or] at h
    rw [List.cons_append, lines, if_neg (Ne.symm h.1), ih h.2]
    rfl

theorem isTerminated_concat (line : List UInt8) : isTerminated (line ++ [lineFeed]) = true := by
  simp [isTerminated]

theorem isTerminated_of_not_mem (h : lineFeed ∉ line) : isTerminated line = false :=
  decide_eq_false fun last => h (List.mem_of_getLast? last)

end

/-! ## Bytes of texts -/

theorem encode_eq (text : String) : encode text = text.toList.flatMap String.utf8EncodeChar := by
  rw [encode, String.toUTF8, ← String.ofList_toList (s := text), String.toByteArray_ofList,
    String.toList_ofList, List.utf8Encode, List.data_toByteArray]

theorem encode_append (s t : String) : encode (s ++ t) = encode s ++ encode t := by
  rw [encode_eq, encode_eq, encode_eq, String.toList_append, List.flatMap_append]

/-- The bytes of a text are read as that text. -/
theorem decode?_encode (text : String) : decode? (encode text) = some text := by
  rw [decode?, encode, Array.toArray_toList]
  exact dif_pos text.isValidUTF8

theorem lineFeed_mem_utf8EncodeChar_iff {c : Char} :
    lineFeed ∈ String.utf8EncodeChar c ↔ c = '\n' := by
  have code : c = '\n' ↔ c.val.toNat = 10 := by
    rw [← Char.val_inj, ← UInt32.toNat_inj]; rfl
  have byte (n : Nat) : lineFeed = UInt8.ofNat n ↔ n % 256 = 10 := by
    rw [← UInt8.toNat_inj, UInt8.toNat_ofNat', eq_comm]; rfl
  -- Only the first range has bytes below 128.
  unfold String.utf8EncodeChar
  simp only [code]
  generalize c.val.toNat = n
  split_ifs <;> simp only [List.mem_cons, List.not_mem_nil, byte, or_false] <;> omega

/-- Where a line feed stands among the bytes of a text, it stands in the text. -/
theorem lineFeed_mem_encode_iff {text : String} : lineFeed ∈ encode text ↔ '\n' ∈ text.toList := by
  rw [encode_eq, List.mem_flatMap]
  constructor
  · rintro ⟨c, hc, hl⟩
    rwa [lineFeed_mem_utf8EncodeChar_iff.1 hl] at hc
  · exact fun h => ⟨'\n', h, lineFeed_mem_utf8EncodeChar_iff.2 rfl⟩

end Reckoner.Session
