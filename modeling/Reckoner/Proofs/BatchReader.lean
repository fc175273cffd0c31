import Reckoner.Proofs.Batch
import Reckoner.Proofs.Stack
/-!
# A reader reads what the layout says

A reader knows of a frame only what it has seen: the digits since the last character that divides the
frame, and the progress before them. The frame of such a state is `Frame.pending`, and one piece of
a frame after the other takes it from one such state to the next.

Results:
* `toExcept_settle_pending`, `toExcept_readOperator_pending`: a frame that ends a segment passes it.
* `onPieces_pending`: the pieces of a frame do what its segments do.
* `feed_contents`: a stack that reads a frame gets as far as its pieces do.
* `read_eq_tree`: reading any text gives the tree of its layout, or the first error in it.
-/
namespace Reckoner

/-! ## What pieces do to a frame -/

namespace Frame
open Segment

/-- The frame of a reader that has seen these digits since the last character that divides the
frame. -/
def pending (digits : List (Char × Position)) (σ : Progress) : Frame :=
  ⟨⟨String.ofList (spelling digits), extent? digits, σ.negative⟩, σ.root⟩

/-- What pieces do to a frame: characters are read, and the trees of groups placed. -/
def onPieces : List Piece → Frame → Except ReadError Frame
  | [], f => .ok f
  | .own c p :: pieces, f => (f.readChar c p).toExcept.bind (onPieces pieces)
  | .group tree :: pieces, f =>
    tree.bind fun tree => onPieces pieces (tree.elim f fun t => (f.place t).state)

theorem onPieces_append (ps qs : List Piece) (f : Frame) :
    onPieces (ps ++ qs) f = (onPieces ps f).bind (onPieces qs) := by
  induction ps generalizing f with
  | nil => rfl
  | cons piece ps ih =>
    cases piece with
    | own c p =>
      rw [List.cons_append, onPieces, onPieces]
      cases (f.readChar c p).toExcept with
      | error e => rfl
      | ok g => exact ih g
    | group tree =>
      rw [List.cons_append, onPieces, onPieces]
      cases tree with
      | error e => rfl
      | ok t => exact ih _

/-- A frame places an operand where it belongs. -/
theorem place_state (t : Tree) (f : Frame) :
    (f.place t).state = { f with root := Progress.put f.root t } := by
  obtain ⟨numeral, root⟩ := f
  rcases root with _ | ⟨x⟩ | ⟨op, l⟩ | ⟨op, l, r⟩ <;> rfl

theorem place_pending (t : Tree) (digits : List (Char × Position)) (σ : Progress) :
    ((pending digits σ).place t).state = pending digits { σ with root := Progress.put σ.root t } := by
  rw [place_state]
  rfl

theorem extent?_cons (d : Char × Position) (ds : List (Char × Position)) :
    extent? (d :: ds) = some ⟨d.2, (ds.getLastD d).2 + 1⟩ := by
  rw [extent?, List.head?_cons, List.getLast?_cons, List.getLastD_eq_getLast?]

theorem pass_digits (digits : List (Char × Position)) (σ : Progress) :
    σ.pass ⟨[], digits⟩ = (literal digits σ.negative).map fun number =>
      ⟨number.toList.foldl Progress.put σ.root, σ.negative && digits.isEmpty⟩ := by
  simp only [Progress.pass, operands, treesOf]
  cases literal digits σ.negative <;> rfl

theorem take_pending {digits : List (Char × Position)} {span : Span}
    (hs : extent? digits = some span) (hn : digits ≠ []) (σ : Progress) :
    (pending digits σ).numeral.take =
      (Numeral.empty, match Decimal.ofChars? (spelling digits) with
        | some d => .ok (some (Signed.toFloat ⟨σ.negative, d.magnitude⟩))
        | none => .error (.malformed (String.ofList (spelling digits)) span)) := by
  have ht : String.ofList (spelling digits) ≠ "" := by simpa [spelling] using hn
  simp only [Numeral.take, pending, if_neg ht, Numeral.value?, hs, Option.getD_some,
    String.toList_ofList]
  cases Decimal.ofChars? (spelling digits) <;> rfl

theorem toExcept_settle_pending (digits : List (Char × Position)) (σ : Progress) :
    (pending digits σ).settle.toExcept = (σ.pass ⟨[], digits⟩).map (pending []) := by
  rw [pass_digits]
  cases digits with
  | nil =>
    have h : (pending [] σ).numeral.take = ((pending [] σ).numeral, .ok none) :=
      Numeral.take_empty rfl
    simp only [settle, h]
    simp [literal, extent?, Except.map]
  | cons d ds =>
    have hs := extent?_cons d ds
    simp only [settle, take_pending hs (List.cons_ne_nil _ _), literal, hs]
    cases Decimal.ofChars? (spelling (d :: ds)) with
    | none => rfl
    | some x =>
      have placed := place_pending (.number (Signed.toFloat ⟨σ.negative, x.magnitude⟩)) []
        ⟨σ.root, false⟩
      simp only [Outcome.toExcept, place_error?, List.isEmpty_cons, Bool.and_false]
      exact congrArg Except.ok placed

/-- A digit behind all others joins them. -/
theorem push_pending {digits : List (Char × Position)} {c : Char} {p : Position}
    (hp : ∀ d ∈ digits, d.2 < p) (σ : Progress) :
    { pending digits σ with numeral := (pending digits σ).numeral.push c p } =
      pending (digits ++ [(c, p)]) σ := by
  cases digits with
  | nil => rfl
  | cons d ds =>
    have last : ds.getLastD d ∈ d :: ds := by
      cases ds with
      | nil => exact List.mem_singleton_self d
      | cons e ds => exact List.mem_cons_of_mem d (by simp [List.getLastD])
    have hl := hp _ last
    have hs := extent?_cons d (ds ++ [(c, p)])
    rw [List.getLastD_concat] at hs
    have text : (String.ofList (spelling (d :: ds))).push c =
        String.ofList (spelling (d :: (ds ++ [(c, p)]))) := by
      apply String.toList_inj.1
      simp [spelling]
    have stop : max ((ds.getLastD d).2 + 1) (p + 1) = p + 1 :=
      Nat.max_eq_right (Nat.succ_le_succ (Nat.le_of_lt hl))
    simp only [pending, List.cons_append, hs, extent?_cons, Numeral.push, Span.extendTo, text, stop]

/-- A character that divides the frame ends the segment before it. -/
theorem toExcept_readOperator_pending (digits : List (Char × Position)) (σ : Progress) (c : Char)
    (p : Position) :
    ((pending digits σ).readOperator c p).toExcept =
      (σ.pass ⟨[], digits⟩).bind fun σ => (σ.cut (c, p)).map (pending []) := by
  rw [readOperator, Outcome.toExcept_andThen, toExcept_settle_pending]
  cases σ.pass ⟨[], digits⟩ with
  | error e => rfl
  | ok σ =>
    simp only [Except.map, Except.bind, complete?, Progress.cut]
    rw [show (pending [] σ).root = σ.root from rfl]
    cases σ.root.filter Tree.isComplete with
    | none =>
      by_cases hc : c = '-'
      · simp only [hc, if_true]; rfl
      · simp only [hc, if_false]; rfl
    | some t => cases Op.ofChar? c <;> rfl

end Frame

/-! ## What segments do to a frame -/

namespace Progress
open Segment

/-- Goes on with digits in front of what remains, up to the last segment; the digits of that one
stay pending. -/
def resume (σ : Progress) (digits : List (Char × Position)) (pieces : List Piece) :
    Except ReadError Frame := do
  let (s, rest) := divide pieces
  let (σ, last) ← σ.run ⟨s.groups, digits ++ s.digits⟩ rest
  let trees ← treesOf last.groups
  return .pending last.digits { σ with root := trees.foldl put σ.root }

theorem pass_group (tree : Except ReadError (Option Tree))
    (groups : List (Except ReadError (Option Tree))) (digits : List (Char × Position))
    (σ : Progress) :
    σ.pass ⟨tree :: groups, digits⟩ = tree.bind fun tree =>
      pass ⟨groups, digits⟩ { σ with root := tree.elim σ.root (put σ.root) } := by
  cases tree with
  | error e => rfl
  | ok t =>
    simp only [pass, operands, treesOf]
    cases treesOf groups with
    | error e => rfl
    | ok trees =>
      cases literal digits σ.negative with
      | error e => rfl
      | ok number => cases t <;> rfl

theorem resume_group (σ : Progress) (digits : List (Char × Position))
    (tree : Except ReadError (Option Tree)) (pieces : List Piece) :
    σ.resume digits (.group tree :: pieces) = tree.bind fun tree =>
      resume { σ with root := tree.elim σ.root (put σ.root) } digits pieces := by
  unfold resume
  rw [divide]
  obtain ⟨s, rest⟩ := divide pieces
  cases rest with
  | nil =>
    cases tree with
    | error e => rfl
    | ok t =>
      show (treesOf (.ok t :: s.groups)).bind _ = (treesOf s.groups).bind _
      rw [treesOf]
      cases treesOf s.groups with
      | error e => rfl
      | ok trees => cases t <;> rfl
  | cons next rest =>
    simp only [run, pass_group]
    cases tree <;> rfl

theorem resume_cut (σ : Progress) (digits : List (Char × Position)) {c : Char} (p : Position)
    (pieces : List Piece) (hb : isBlank c = false) (ha : Numeral.accepts c = false) :
    σ.resume digits (.own c p :: pieces) =
      (σ.pass ⟨[], digits⟩).bind fun σ => (σ.cut (c, p)).bind fun σ => σ.resume [] pieces := by
  unfold resume
  rw [divide]
  obtain ⟨s, rest⟩ := divide pieces
  simp only [hb, ha, if_false, Bool.false_eq_true, run, empty, List.append_nil, List.nil_append]
  cases σ.pass ⟨[], digits⟩ with
  | error e => rfl
  | ok σ => cases h : σ.cut (c, p) <;> simp [h, bind, Except.bind]

end Progress

/-! ## Positions -/

/-- The positions of characters grow from `p` on. -/
def Ascending (p : Nat) : List Piece → Prop
  | [] => True
  | .own _ q :: pieces => p ≤ q ∧ Ascending (q + 1) pieces
  | .group _ :: pieces => Ascending p pieces

theorem ascending_mono {p q : Nat} (h : p ≤ q) {pieces : List Piece}
    (ha : Ascending q pieces) : Ascending p pieces := by
  induction pieces with
  | nil => trivial
  | cons piece pieces ih =>
    cases piece with
    | own c r => exact ⟨Nat.le_trans h ha.1, ha.2⟩
    | group tree => exact ih ha

theorem ascending_pieces (a : Contents) (p : Nat) {pieces : List Piece}
    (ha : Ascending (p + a.text.length) pieces) : Ascending p (a.pieces p ++ pieces) := by
  induction a generalizing p with
  | nil => exact ha
  | own c plain rest ih =>
    refine ⟨Nat.le_refl p, ih (p + 1) (ascending_mono ?_ ha)⟩
    simp only [Contents.text, List.length_cons]
    omega
  | group inner rest _ ih =>
    have next := ih (p + inner.text.length + 2) (ascending_mono ?_ ha)
    · exact ascending_mono (show p ≤ p + inner.text.length + 2 by omega) next
    · simp only [Contents.text, List.length_cons, List.length_append]
      omega

theorem ascending_contents (a : Contents) (p : Nat) : Ascending p (a.pieces p) := by
  rw [← List.append_nil (a.pieces p)]
  exact ascending_pieces a p trivial

theorem ascending_strayPieces (stray : List Contents) (p : Nat) :
    Ascending p (Layout.strayPieces stray p) := by
  induction stray generalizing p with
  | nil => trivial
  | cons a stray ih =>
    refine ⟨Nat.le_refl p, ascending_pieces a (p + 1) ?_⟩
    rw [Nat.add_right_comm]
    exact ih _

theorem Segment.lt_succ_of_mem_append {digits : List (Char × Position)} {p : Nat} (c : Char)
    (hd : ∀ d ∈ digits, d.2 < p) : ∀ d ∈ digits ++ [(c, p)], d.2 < p + 1 := by
  intro d hm
  rcases List.mem_append.1 hm with hm | hm
  · exact Nat.lt_succ_of_lt (hd d hm)
  · rw [List.mem_singleton.1 hm]; exact Nat.lt_succ_self p

/-- **The pieces of a frame** do to a reader's frame what its segments do, with the digits of the
last one still pending. -/
theorem onPieces_pending {p : Nat} {pieces : List Piece} (ha : Ascending p pieces)
    {digits : List (Char × Position)} (hd : ∀ d ∈ digits, d.2 < p) (σ : Progress) :
    Frame.onPieces pieces (.pending digits σ) = σ.resume digits pieces := by
  induction pieces generalizing p digits σ with
  | nil => exact congrArg (fun ds => Except.ok (Frame.pending ds σ)) (List.append_nil digits).symm
  | cons piece pieces ih =>
    cases piece with
    | group tree =>
      rw [Frame.onPieces, Progress.resume_group]
      cases tree with
      | error e => rfl
      | ok tree =>
        cases tree with
        | none => exact ih ha hd σ
        | some t =>
          have placed := Frame.place_pending t digits σ
          simp only [Except.bind, Option.elim_some, placed]
          exact ih ha hd _
    | own c q =>
      have hq : ∀ d ∈ digits, d.2 < q := fun d m => Nat.lt_of_lt_of_le (hd d m) ha.1
      rw [Frame.onPieces, Frame.readChar]
      cases hb : isBlank c with
      | true =>
        have := ih ha.2 (fun d m => Nat.lt_succ_of_lt (hq d m)) σ
        simpa [Except.bind, Progress.resume, Segment.divide, hb] using this
      | false => ?_
      cases hn : Numeral.accepts c with
      | true =>
        have := ih ha.2 (Segment.lt_succ_of_mem_append c hq) σ
        simp only [Bool.false_eq_true, if_false, if_true, Outcome.toExcept_done, Except.bind,
          Frame.push_pending hq, this]
        simp [Progress.resume, Segment.divide, hb, hn]
      | false =>
        rw [Progress.resume_cut σ digits q pieces hb hn]
        simp only [Bool.false_eq_true, if_false, Frame.toExcept_readOperator_pending]
        cases σ.pass ⟨[], digits⟩ with
        | error e => rfl
        | ok σ =>
          simp only [Except.bind]
          cases σ.cut (c, q) with
          | error e => rfl
          | ok σ => exact ih ha.2 (fun _ m => absurd m List.not_mem_nil) σ

/-! ## Frames that end, and frames that do not -/

theorem pass_eq_bind (s : Segment) (σ : Progress) :
    σ.pass s = (Segment.treesOf s.groups).bind fun trees =>
      Progress.pass ⟨[], s.digits⟩ { σ with root := trees.foldl Progress.put σ.root } := by
  simp only [Progress.pass, Segment.operands]
  cases Segment.treesOf s.groups with
  | error e => rfl
  | ok trees =>
    cases Segment.literal s.digits σ.negative <;>
      simp [bind, Except.bind, pure, Except.pure, Segment.treesOf]

theorem treeOfPieces_eq {p : Nat} {pieces : List Piece} (ha : Ascending p pieces) :
    treeOfPieces pieces =
      (Frame.onPieces pieces Frame.empty).bind fun f => f.settle.toExcept.map Frame.root := by
  have start := onPieces_pending ha (fun _ m => absurd m List.not_mem_nil) Progress.start
  rw [show Frame.empty = .pending [] Progress.start from rfl, start, treeOfPieces, Progress.resume]
  simp only [List.nil_append]
  cases Progress.start.run _ _ with
  | error e => rfl
  | ok reached =>
    obtain ⟨σ, last⟩ := reached
    simp only [bind, Except.bind, pass_eq_bind last]
    cases Segment.treesOf last.groups with
    | error e => rfl
    | ok trees =>
      simp only [pure, Except.pure, Frame.toExcept_settle_pending]
      cases Progress.pass ⟨[], last.digits⟩ _ <;> rfl

theorem checkOpened_eq {p : Nat} {pieces : List Piece} (ha : Ascending p pieces) :
    checkOpened pieces = (Frame.onPieces pieces Frame.empty).map fun _ => () := by
  have start := onPieces_pending ha (fun _ m => absurd m List.not_mem_nil) Progress.start
  rw [show Frame.empty = .pending [] Progress.start from rfl, start, checkOpened, Progress.resume]
  simp only [List.nil_append]
  cases Progress.start.run _ _ with
  | error e => rfl
  | ok reached =>
    simp only [bind, Except.bind]
    cases Segment.treesOf reached.2.groups <;> rfl

/-! ## Texts on a stack -/

namespace Stack

/-- **The text of a frame** takes the frame on the top of a stack where its pieces take it, and
leaves the stack below alone. -/
theorem feed_contents (a : Contents) (f : Frame) (fs : List Frame) (p : Nat) :
    (feed a.text ⟨f, fs, p, false⟩).toExcept =
      (Frame.onPieces (a.pieces p) f).map fun g => ⟨g, fs, p + a.text.length, false⟩ := by
  induction a generalizing f fs p with
  | nil => rfl
  | own c plain rest ih =>
    rw [Contents.text, toExcept_feed_cons, step_plain f fs p plain.1 plain.2, Contents.pieces,
      Frame.onPieces]
    cases (f.readChar c p).toExcept with
    | error e => rfl
    | ok g =>
      have next := ih g fs (p + 1)
      rw [Nat.add_right_comm p 1 rest.text.length] at next
      exact next
  | group inner rest ihi ihr =>
    rw [Contents.text, toExcept_feed_cons, step_open rfl, Contents.pieces, Frame.onPieces,
      treeOfPieces_eq (ascending_contents inner (p + 1))]
    show (feed (inner.text ++ ')' :: rest.text) ⟨Frame.empty, f :: fs, p + 1, false⟩).toExcept = _
    rw [toExcept_feed_append, ihi]
    cases Frame.onPieces (inner.pieces (p + 1)) Frame.empty with
    | error e => rfl
    | ok g =>
      simp only [Except.map, Except.bind]
      rw [toExcept_feed_cons, step_close rfl rfl, toExcept_close]
      cases g.settle.toExcept with
      | error e => rfl
      | ok g =>
        have next := ihr (g.root.elim f fun t => (f.place t).state) fs (p + inner.text.length + 2)
        have behind : p + inner.text.length + 2 = p + 1 + inner.text.length + 1 := by omega
        have length : p + 1 + inner.text.length + 1 + rest.text.length =
            p + ('(' :: (inner.text ++ ')' :: rest.text)).length := by
          simp only [List.length_cons, List.length_append]
          omega
        rw [behind, length] at next
        rw [behind]
        exact next

theorem feed_stray (stray : List Contents) (f : Frame) (p : Nat) :
    (feed (stray.flatMap fun a => ')' :: a.text) ⟨f, [], p, false⟩).toExcept =
      (Frame.onPieces (Layout.strayPieces stray p) f).map fun g =>
        ⟨g, [], p + (stray.flatMap fun a => ')' :: a.text).length, false⟩ := by
  induction stray generalizing f p with
  | nil => rfl
  | cons a stray ih =>
    rw [List.flatMap_cons, List.cons_append, toExcept_feed_cons,
      step_own rfl (by decide) fun _ => rfl, readOwn, Outcome.toExcept_map, Layout.strayPieces,
      Frame.onPieces]
    cases (f.readChar ')' p).toExcept with
    | error e => rfl
    | ok g =>
      simp only [Except.map, Except.bind]
      rw [toExcept_feed_append, feed_contents, Frame.onPieces_append]
      cases Frame.onPieces (a.pieces (p + 1)) g with
      | error e => rfl
      | ok h =>
        have next := ih h (p + a.text.length + 1)
        have length : p + a.text.length + 1 + (stray.flatMap fun a => ')' :: a.text).length =
            p + (')' :: (a.text ++ stray.flatMap fun a => ')' :: a.text)).length := by
          simp only [List.length_cons, List.length_append]
          omega
        rw [length] at next
        rw [Nat.add_right_comm p 1]
        exact next

/-- What stands outside all groups that are closed sooner or later. -/
theorem feed_outer (L : Layout) :
    (feed (L.first.text ++ L.stray.flatMap fun a => ')' :: a.text) start).toExcept =
      (Frame.onPieces L.outerPieces Frame.empty).map fun g => ⟨g, [], L.outerLength, false⟩ := by
  rw [toExcept_feed_append, start, feed_contents, Layout.outerPieces, Frame.onPieces_append]
  cases Frame.onPieces (L.first.pieces 0) Frame.empty with
  | error e => rfl
  | ok g =>
    have next := feed_stray L.stray g L.first.text.length
    simp only [Except.map, Except.bind, Nat.zero_add]
    exact next

/-- What stands in groups that are never closed: they all stay on the stack. -/
theorem feed_opened (opened : List Contents) (f : Frame) (fs : List Frame) (p : Nat) :
    (feed (opened.flatMap fun a => '(' :: a.text) ⟨f, fs, p, false⟩).toExcept.map
        (fun m => (m.below.length, m.finished)) =
      (Layout.checkGroups opened p).map fun _ => (fs.length + opened.length, false) := by
  induction opened generalizing f fs p with
  | nil => rfl
  | cons a opened ih =>
    rw [List.flatMap_cons, List.cons_append, toExcept_feed_cons, step_open rfl,
      Layout.checkGroups, checkOpened_eq (ascending_contents a (p + 1))]
    show Except.map _ (feed (a.text ++ _) ⟨Frame.empty, f :: fs, p + 1, false⟩).toExcept = _
    rw [toExcept_feed_append, feed_contents]
    cases Frame.onPieces (a.pieces (p + 1)) Frame.empty with
    | error e => rfl
    | ok g =>
      have next := ih g (f :: fs) (p + a.text.length + 1)
      rw [List.length_cons, Nat.add_right_comm fs.length 1] at next
      rw [List.length_cons, Nat.add_right_comm p 1]
      exact next

/-- **A stack reads a text** as its layout has it. -/
theorem read_layout (L : Layout) :
    ((feed L.text start).andThen finish).toExcept.map root = L.tree := by
  rw [Outcome.toExcept_andThen, Layout.text, toExcept_feed_append, feed_outer, Layout.tree]
  have ascending : Ascending 0 L.outerPieces := ascending_pieces L.first 0 (by
    rw [Nat.zero_add]; exact ascending_strayPieces L.stray _)
  by_cases ho : L.opened = []
  · rw [if_pos ho, ho, treeOfPieces_eq ascending]
    cases Frame.onPieces L.outerPieces Frame.empty with
    | error e => rfl
    | ok g => exact finish_start g L.outerLength
  · rw [if_neg ho, checkOpened_eq ascending]
    cases Frame.onPieces L.outerPieces Frame.empty with
    | error e => rfl
    | ok g =>
      have opened := feed_opened L.opened g [] L.outerLength
      show Except.map root (Except.bind (feed _ ⟨g, [], L.outerLength, false⟩).toExcept _) =
        (Layout.checkGroups L.opened L.outerLength).bind _
      cases hm : (feed (L.opened.flatMap fun a => '(' :: a.text)
        ⟨g, [], L.outerLength, false⟩).toExcept with
      | error e =>
        rw [hm] at opened
        cases hc : Layout.checkGroups L.opened L.outerLength with
        | error e' => rw [hc] at opened; cases opened; rfl
        | ok u => rw [hc] at opened; cases opened
      | ok m =>
        rw [hm] at opened
        cases hc : Layout.checkGroups L.opened L.outerLength with
        | error e' => rw [hc] at opened; cases opened
        | ok u =>
          rw [hc] at opened
          simp only [Except.map, Except.ok.injEq, Prod.mk.injEq, List.length_nil,
            Nat.zero_add] at opened
          have pos : 0 < m.below.length := by
            rw [opened.1]; exact List.length_pos_iff.2 ho
          simp only [Except.bind, finish_open opened.2 pos, opened.1]
          rfl

end Stack

/-- **Reading any text gives the tree of its layout**, or fails with the first error in it. -/
theorem read_eq_tree (text : String) :
    (Layout.ofChars text.toList).text = text.toList ∧
      (Reader.read text).toExcept.map Reader.root = (Layout.ofChars text.toList).tree := by
  have hl := Layout.text_ofChars text.toList
  have hr := Stack.read_layout (Layout.ofChars text.toList)
  rw [hl] at hr
  exact ⟨hl, (Reader.toExcept_read text).trans hr⟩

end Reckoner
