import Reckoner.Proofs.Groups
import Reckoner.Proofs.RoundTrip
/-!
# Strictly left to right

An operator takes all that was read before it as its left operand, so parentheses around that part
change nothing. There is one exception. A minus sign that no number has used up waits inside of the
parentheses, and is lost with them, but without them it waits for the number behind the operator.

Results:
* `Frame.readOperator_settled`: an operator may as well come when the numeral before it is settled.
* `Stack.readAll_grouped`: the same text with the part before an operator in parentheses.
* `Reader.regroups_unless_signed`: when parentheses around that part matter, and when not.
-/
namespace Reckoner

namespace Op

theorem symbol_plain (op : Op) :
    op.symbol ≠ '(' ∧ op.symbol ≠ ')' ∧ isBlank op.symbol = false ∧
      Numeral.accepts op.symbol = false := by
  cases op <;> decide

end Op

/-! ## Frames -/

namespace Frame

theorem readChar_symbol (f : Frame) (op : Op) (p : Position) :
    f.readChar op.symbol p = f.readOperator op.symbol p := by
  obtain ⟨-, -, blank, digit⟩ := op.symbol_plain
  rw [readChar, blank, digit]
  rfl

/-- An operator first settles the numeral before it. -/
theorem readOperator_settled {f g : Frame} (h : f.settle.toExcept = .ok g) (c : Char)
    (p : Position) : (f.readOperator c p).toExcept = (g.readOperator c p).toExcept := by
  have again := settle_of_text_eq (settle_ok h).1
  rw [readOperator, readOperator, Outcome.toExcept_andThen, Outcome.toExcept_andThen, h, again,
    Outcome.toExcept_done]

/-- A sign that waits in a settled frame. -/
theorem numeral_of_settled {f g : Frame} (hl : f.numeral.Located) (h : f.settle.toExcept = .ok g) :
    g.numeral = ⟨"", none, g.numeral.negative⟩ := by
  obtain ⟨ht, hn⟩ := settle_ok h
  have located : g.numeral.Located := by rw [hn]; exact Numeral.located_take hl
  obtain ⟨⟨text, span?, negative⟩, root⟩ := g
  cases ht
  cases span? with
  | none => rfl
  | some span => exact absurd rfl (located.1 rfl)

/-- Where an operand is awaited, a minus sign waits for it too, and no operator can follow. -/
theorem readOperator_awaiting {f : Frame} (ht : f.numeral.text = "") (hc : f.complete? = none)
    (c : Char) (p : Position) :
    f.readOperator c p =
      if c = '-' then .done { f with numeral := f.numeral.markNegative }
      else .failed f (.unexpected c p) := by
  rw [readOperator, settle_of_text_eq ht, Outcome.done_andThen, hc]

/-- The frame around a group with this tree and nothing else. -/
def holding (root : Option Tree) : Frame := ⟨Numeral.empty, root⟩

/-- Behind a settled frame and behind a group with its tree, operators do the same, unless a sign
waits in the frame and its tree is complete. -/
theorem readOperator_holding {g : Frame} (hn : g.numeral = ⟨"", none, g.numeral.negative⟩)
    (hs : g.numeral.negative = true → g.complete? = none) (c : Char) (p k : Nat) :
    ((holding g.root).readOperator c (p + k)).toExcept =
      recasted (.moving (· + k)) (recast (.moving (· + k))) (g.readOperator c p).toExcept := by
  obtain ⟨numeral, root⟩ := g
  cases hneg : numeral.negative with
  | false =>
    rw [hneg] at hn
    cases hn
    exact readOperator_recast (f := holding root) (Recast.faithful_moving (relocates_add k p))
      Numeral.located_empty c p
  | true =>
    -- The group has lost the sign, but without a complete tree there is nothing that it can be for:
    -- an operator is one more sign, or an error.
    have awaits := hs hneg
    rw [hneg] at hn
    cases hn
    have awaits' : (holding root).complete? = none := awaits
    rw [readOperator_awaiting rfl awaits, readOperator_awaiting rfl awaits']
    by_cases hc : c = '-'
    · rw [if_pos hc, if_pos hc]
      rfl
    · rw [if_neg hc, if_neg hc]
      rfl

end Frame

/-! ## Stacks -/

namespace Stack
open Reckoner.Frame (pending holding)

theorem step_symbol (f : Frame) (fs : List Frame) (p : Nat) (op : Op) :
    (step op.symbol ⟨f, fs, p, false⟩).toExcept =
      (f.readOperator op.symbol p).toExcept.map fun g => ⟨g, fs, p + 1, false⟩ := by
  obtain ⟨ho, hc, -, -⟩ := op.symbol_plain
  rw [step_plain f fs p ho hc, Frame.readChar_symbol]

/-- A text that is read up to an operator goes on from the settled frame. -/
theorem readAll_plain {u : List Char} {n : Stack} (h : readAll u start = .ok n) (op : Op)
    (v : List Char) :
    readAll (u ++ op.symbol :: v) start =
      readAll (op.symbol :: v) ⟨n.top, [], u.length, false⟩ := by
  obtain ⟨f, hu, hs, -⟩ := readAll_ok rfl h
  have length : start.position + u.length = u.length := Nat.zero_add _
  rw [length] at hu
  rw [readAll_append_of_ok hu, readAll_cons, readAll_cons, step_symbol, step_symbol,
    Frame.readOperator_settled hs]

/-- With parentheses around it, the text goes on from a frame that holds its tree. -/
theorem readAll_parenthesized {u : List Char} {n : Stack} (h : readAll u start = .ok n)
    (v : List Char) :
    readAll ('(' :: (u ++ [')']) ++ v) start =
      readAll v ⟨holding n.top.root, [], u.length + 2, false⟩ := by
  obtain ⟨f, -, -, hn⟩ := readAll_ok rfl h
  have root : n.root = n.top.root := by rw [hn]; rfl
  have grafted : start.graft (u.length + 2) n.root =
      ⟨holding n.top.root, [], u.length + 2, false⟩ := by
    rw [root, graft, start]
    simp only [Nat.zero_add, Frame.empty, holding]
    cases n.top.root <;> rfl
  rw [readAll_append_of_ok (feed_group h rfl), grafted]

/-- **Parentheses around what an operator takes as its left operand** only move what follows. -/
theorem readAll_grouped {u : List Char} {n : Stack} (h : readAll u start = .ok n)
    (hs : n.top.numeral.negative = true → n.top.complete? = none) (op : Op) (v : List Char) :
    readAll ('(' :: (u ++ [')']) ++ op.symbol :: v) start =
      recasted (.moving (· + 2)) (recast (.moving (· + 2))) (readAll (u ++ op.symbol :: v) start) := by
  obtain ⟨f, hu, settled, -⟩ := readAll_ok rfl h
  have located := located_feed located_start rfl hu
  have hn := Frame.numeral_of_settled (located f List.mem_cons_self) settled
  have readied : (⟨n.top, [], u.length, false⟩ : Stack).Located := by
    intro g hg
    rw [List.mem_singleton.1 hg, hn]
    exact Numeral.located_empty
  have operator := Frame.readOperator_holding hn hs op.symbol u.length 2
  rw [readAll_parenthesized h, readAll_plain h, readAll_cons, readAll_cons]
  have moved : (step op.symbol ⟨holding n.top.root, [], u.length + 2, false⟩).toExcept =
      recasted (.moving (· + 2)) (recast (.moving (· + 2)))
        (step op.symbol ⟨n.top, [], u.length, false⟩).toExcept := by
    rw [step_symbol, step_symbol, operator]
    cases (n.top.readOperator op.symbol u.length).toExcept with
    | error e => rfl
    | ok g => simp [Except.map, recast, Recast.moving, Nat.add_right_comm]
  -- Behind the operator both texts are read from one state, up to positions.
  rw [moved]
  refine recasted_bind ?_
  intro k hk
  exact readAll_moving (located_step readied rfl hk) (finished_of_step_ok rfl hk)
    (relocates_add 2 _) v

/-- One more operand, the number one or minus one. -/
def andOne (negative : Bool) (op : Op) (t : Tree) : Tree :=
  .binary op t (.number (Signed.toFloat ⟨negative, Decimal.magnitude ⟨1, 0⟩⟩))

theorem andOne_ne (op : Op) (t : Tree) : andOne true op t ≠ andOne false op t := by
  intro h
  have same := Tree.number.inj (Tree.binary.inj h).2.2
  cases Signed.toFloat_injective same

/-- A number behind an operator takes the sign that waits. -/
theorem readAll_andOne {t : Tree} (ht : t.isComplete = true) (negative : Bool) (op : Op) (p : Nat) :
    (readAll [op.symbol, '1'] ⟨pending [] ⟨some t, negative⟩, [], p, false⟩).map root =
      .ok (some (andOne negative op t)) := by
  have operator : ((pending [] ⟨some t, negative⟩).readOperator op.symbol p).toExcept =
      .ok (pending [] ⟨some (.pending op t), negative⟩) := by
    rw [Frame.toExcept_readOperator_pending, Frame.pass_digits]
    simp [Segment.literal, Segment.extent?, Except.map, Except.bind, Progress.cut, Option.filter,
      ht]
  have digit :
      (feed ['1'] ⟨pending [] ⟨some (.pending op t), negative⟩, [], p + 1, false⟩).toExcept =
        .ok ⟨pending [('1', p + 1)] ⟨some (.pending op t), negative⟩, [], p + 1 + 1, false⟩ :=
    feed_digits (fun c hc => by rw [List.mem_singleton.1 hc]; decide)
      (fun _ h => absurd h List.not_mem_nil) _ []
  rw [readAll_cons, step_symbol, operator, Except.map, Except.bind, readAll_eq, digit, Except.bind]
  have ends := finish_start (pending [('1', p + 1)] ⟨some (.pending op t), negative⟩) (p + 1 + 1)
  rw [Frame.toExcept_settle_pending, Frame.pass_digits] at ends
  exact ends

/-- All errors of a text that is moved on are moved on as far. -/
theorem map_root_moving (cs : List Char) (k : Nat) :
    (recasted (.moving (· + k)) (recast (.moving (· + k))) (readAll cs start)).map root =
      ((readAll cs start).map root).mapError (ReadError.shift k) := by
  rw [map_root_recasted]
  cases h : readAll cs start with
  | error e =>
    have moved : e.recast (.moving (· + k)) = e.shift k := by
      rw [ReadError.recast_moving, ReadError.relocate_add (blames_of_readAll h)]
    exact congrArg Except.error moved
  | ok n => rfl

end Stack

/-! ## Readers -/

namespace Reader

/-- A minus sign still waits for a number, behind a tree that misses no operand. -/
def SignWaits (r : Reader) : Prop :=
  r.level.frame.numeral.negative = true ∧ ∃ t, r.root = some t ∧ t.isComplete = true

theorem flatten_top {r : Reader} (h : r.flatten.below = []) : r.flatten.top = r.level.frame := by
  cases r with
  | innermost l => rfl
  | enclosing l inner => simp [flatten] at h

theorem toList_operation (u v : String) (op : Op) :
    (u ++ op.symbol.toString ++ v).toList = u.toList ++ op.symbol :: v.toList := by
  simp

theorem toList_grouped (u v : String) (op : Op) :
    ("(" ++ u ++ ")" ++ op.symbol.toString ++ v).toList =
      '(' :: (u.toList ++ [')']) ++ op.symbol :: v.toList := by
  simp

/-- **Parentheses around the left operand change nothing**, except the positions in errors, unless
a sign waits behind a complete tree: then they do, whatever the operator. -/
theorem regroups_unless_signed {u : String} {q : Reader} (hu : (read u).toExcept = .ok q)
    (op : Op) :
    (¬ q.SignWaits → ∀ v : String,
      meaning ("(" ++ u ++ ")" ++ op.symbol.toString ++ v) =
        (meaning (u ++ op.symbol.toString ++ v)).mapError (ReadError.shift 2)) ∧
    (q.SignWaits → ∃ (v : String) (t t' : Tree),
      meaning (u ++ op.symbol.toString ++ v) = .ok (some t) ∧
      meaning ("(" ++ u ++ ")" ++ op.symbol.toString ++ v) = .ok (some t') ∧ t ≠ t') := by
  have whole := readAll_toList u
  rw [hu] at whole
  obtain ⟨f, hf, settled, hq⟩ := Stack.readAll_ok rfl whole
  have top : q.flatten.top = q.level.frame := flatten_top (by rw [hq])
  constructor
  · intro hs v
    have waits : q.flatten.top.numeral.negative = true → q.flatten.top.complete? = none := by
      rw [top]
      intro hneg
      rw [Frame.complete?, Option.filter_eq_none_iff]
      intro t ht hc
      exact hs ⟨hneg, t, ht, hc⟩
    rw [meaning_eq, meaning_eq, toList_grouped, toList_operation,
      Stack.readAll_grouped whole waits, Stack.map_root_moving]
  · rintro ⟨hneg, t, ht, hc⟩
    have located := Stack.located_feed Stack.located_start rfl hf f List.mem_cons_self
    have signed : q.flatten.top = .pending [] ⟨some t, true⟩ := by
      have hn := Frame.numeral_of_settled located settled
      rw [top, hneg] at hn
      rw [top, Frame.pending, ← ht]
      exact congrArg (Frame.mk · q.root) hn
    -- Any number shows the difference: it takes the sign, or there is none.
    refine ⟨"1", Stack.andOne true op t, Stack.andOne false op t, ?_, ?_, Stack.andOne_ne op t⟩
    · rw [meaning_eq, toList_operation, Stack.readAll_plain whole, signed]
      exact Stack.readAll_andOne hc true op _
    · rw [meaning_eq, toList_grouped, Stack.readAll_parenthesized whole, signed]
      exact Stack.readAll_andOne hc false op _

/-- A sign in front of a group waits behind it; a sign with nothing before it is no exception. -/
theorem regroups_unless_signed_group :
    ((read "-(3)").state.SignWaits ∧
      ∃ (v : String) (t t' : Tree), meaning ("-(3)" ++ "*" ++ v) = .ok (some t) ∧
        meaning ("(" ++ "-(3)" ++ ")" ++ "*" ++ v) = .ok (some t') ∧ t ≠ t') ∧
    (¬ (read "-").state.SignWaits ∧
      meaning ("(" ++ "-" ++ ")" ++ "-" ++ "1,,") = .error (.malformed "1,," ⟨4, 7⟩)) := by
  have group : (read "-(3)").toExcept = .ok (read "-(3)").state :=
    Outcome.toExcept_eq_ok_iff.2 ⟨by decide, rfl⟩
  have waits : (read "-(3)").state.SignWaits := ⟨by decide, _, rfl, rfl⟩
  have sign : (read "-").toExcept = .ok (read "-").state :=
    Outcome.toExcept_eq_ok_iff.2 ⟨by decide, rfl⟩
  have free : ¬ (read "-").state.SignWaits := by
    rintro ⟨-, t, ht, -⟩
    cases ht
  exact ⟨⟨waits, (regroups_unless_signed group .mul).2 waits⟩,
    free, (regroups_unless_signed sign .sub).1 free "1,,"⟩

end Reader

end Reckoner
