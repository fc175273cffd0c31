/-!
# The layout of a text

How the parentheses divide a text into frames: the whole text is a frame, and so is what stands
between two parentheses that match. A frame has characters of its own, and groups, which are frames
again. Parentheses that match nothing are kept apart.

Results:
* `text_ofChars`, `ofChars_text`: every text has exactly one layout.
-/
namespace Reckoner

/-- What stands in a frame, in order. No character of its own is a parenthesis. -/
inductive Contents where
  | nil
  | own (c : Char) (plain : c ≠ '(' ∧ c ≠ ')') (rest : Contents)
  | group (inner rest : Contents)

namespace Contents

def text : Contents → List Char
  | nil => []
  | own c _ rest => c :: rest.text
  | group inner rest => '(' :: (inner.text ++ ')' :: rest.text)

def append : Contents → Contents → Contents
  | nil, later => later
  | own c plain rest, later => own c plain (rest.append later)
  | group inner rest, later => group inner (rest.append later)

theorem append_nil (a : Contents) : a.append nil = a := by
  induction a with
  | nil => rfl
  | own c plain rest ih => rw [append, ih]
  | group inner rest _ ih => rw [append, ih]

end Contents

/-- A text, divided at the parentheses that match nothing. -/
structure Layout where
  /-- What stands outside all groups, up to the first `)` that matches nothing. -/
  first : Contents
  /-- What stands outside all groups behind each `)` that matches nothing. -/
  stray : List Contents
  /-- What stands in each group that is never closed, from the outside in. -/
  opened : List Contents

namespace Layout

def text (L : Layout) : List Char :=
  L.first.text ++ L.stray.flatMap (fun a => ')' :: a.text) ++
    L.opened.flatMap (fun a => '(' :: a.text)

/-- The layout of a text with one more character in front. A `(` matches the first `)` that matches
nothing behind it. -/
def cons (c : Char) (L : Layout) : Layout :=
  if ho : c = '(' then
    match L.stray with
    | [] => ⟨.nil, [], L.first :: L.opened⟩
    | next :: stray => ⟨.group L.first next, stray, L.opened⟩
  else if hc : c = ')' then ⟨.nil, L.first :: L.stray, L.opened⟩
  else ⟨.own c ⟨ho, hc⟩ L.first, L.stray, L.opened⟩

def ofChars (cs : List Char) : Layout := cs.foldr cons ⟨.nil, [], []⟩

/-! ## A layout of the text -/

theorem text_cons (c : Char) (L : Layout) : (cons c L).text = c :: L.text := by
  obtain ⟨first, stray, opened⟩ := L
  unfold cons
  split
  · rename_i ho
    subst ho
    cases stray <;> simp [text, Contents.text]
  · split
    · rename_i hc
      subst hc
      simp [text, Contents.text]
    · simp [text, Contents.text]

theorem text_ofChars (cs : List Char) : (ofChars cs).text = cs := by
  induction cs with
  | nil => rfl
  | cons c cs ih => rw [ofChars, List.foldr_cons, text_cons]; exact congrArg (c :: ·) ih

/-! ## The only one -/

theorem foldr_cons_contents (a : Contents) (L : Layout) :
    a.text.foldr cons L = ⟨a.append L.first, L.stray, L.opened⟩ := by
  induction a generalizing L with
  | nil => rfl
  | own c plain rest ih =>
    rw [Contents.text, List.foldr_cons, ih, cons, dif_neg plain.1, dif_neg plain.2]
    rfl
  | group inner rest ihi ihr =>
    rw [Contents.text, List.foldr_cons, List.foldr_append, List.foldr_cons, ihr, ihi]
    simp [cons, Contents.append, Contents.append_nil]

theorem foldr_cons_opened (opened : List Contents) :
    (opened.flatMap fun a => '(' :: a.text).foldr cons ⟨.nil, [], []⟩ = ⟨.nil, [], opened⟩ := by
  induction opened with
  | nil => rfl
  | cons a opened ih =>
    rw [List.flatMap_cons, List.foldr_append, ih, List.foldr_cons, foldr_cons_contents]
    simp [cons, Contents.append_nil]

theorem foldr_cons_stray (stray opened : List Contents) :
    (stray.flatMap fun a => ')' :: a.text).foldr cons ⟨.nil, [], opened⟩ =
      ⟨.nil, stray, opened⟩ := by
  induction stray with
  | nil => rfl
  | cons a stray ih =>
    rw [List.flatMap_cons, List.foldr_append, ih, List.foldr_cons, foldr_cons_contents]
    simp [cons, Contents.append_nil]

/-- No other layout has the text of `L`, so what is told of the layout is told of the text. -/
theorem ofChars_text (L : Layout) : ofChars L.text = L := by
  rw [ofChars, text, List.foldr_append, List.foldr_append, foldr_cons_opened, foldr_cons_stray,
    foldr_cons_contents, Contents.append_nil]

end Layout

end Reckoner
