import Reckoner.Proofs.Steps
import Reckoner.Tree.Walk
/-!
# What becomes of all that is read

Every number that ends, and every operator, goes into one node of one tree. Trees are moved from
frame to frame as groups end, and an operand without a place is discarded with all that is in it,
but then an event tells of it. So all that was read is in the tree of the text and in the operands
that were discarded on the way, each number and each operator once.

Results:
* `balances_step`: one character adds to the trees on the stack, or to those discarded, what it
  reads.
* `balances_readAll`: a text adds all that its characters read.
* `Reader.accounts_of_read`: the numbers and the operators of a text, counted in trees and characters.
-/
namespace Reckoner

/-! ## Labels -/

/-- What a node is, apart from its operands. -/
inductive Label where
  | number (value : Float)
  | operator (op : Op)
deriving DecidableEq

def Label.number? : Label → Option Float
  | number x => some x
  | operator _ => none

namespace Tree

def label : Tree → Label
  | number x => .number x
  | pending op _ => .operator op
  | binary op _ _ => .operator op

/-- The labels of all nodes. -/
def labels (t : Tree) : List Label := t.postorder.map label

@[simp] theorem labels_number (x : Float) : (number x).labels = [.number x] := rfl

@[simp] theorem labels_pending (op : Op) (l : Tree) :
    (pending op l).labels = l.labels ++ [.operator op] := by
  simp [labels, postorder, label]

@[simp] theorem labels_binary (op : Op) (l r : Tree) :
    (binary op l r).labels = l.labels ++ r.labels ++ [.operator op] := by
  simp [labels, postorder, label]

/-- A tree that is filled has its own labels and those of the operand. -/
theorem count_fillRight? {t operand filled : Tree} (h : t.fillRight? operand = some filled)
    (k : Label) : filled.labels.count k = t.labels.count k + operand.labels.count k := by
  cases t with
  | pending op l =>
    cases h
    simp only [labels_binary, labels_pending, List.count_append]
    omega
  | _ => cases h

end Tree

/-- The operands that were discarded. -/
def discarded (events : List Event) : List Tree :=
  events.filterMap fun
    | .discarded operand _ => some operand
    | _ => none

/-- The labels of the operands that were discarded. -/
def lost (events : List Event) : List Label := (discarded events).flatMap Tree.labels

theorem lost_append (es fs : List Event) : lost (es ++ fs) = lost es ++ lost fs := by
  simp [lost, discarded]

/-- Every label that was there or is read is there afterwards, or lost, as often. -/
def Balances (before read after gone : List Label) : Prop :=
  ∀ k, after.count k + gone.count k = before.count k + read.count k

/-! ## Frames -/

namespace Frame

def labels (f : Frame) : List Label := f.root.elim [] Tree.labels

/-- The number that the pending numeral is, if there is one. -/
def number? (f : Frame) : Option Float :=
  match f.numeral.take.2 with
  | .ok x => x
  | .error _ => none

/-- Whether the numeral ends: a number goes on through blanks, and groups may stand in it. -/
def ends (c : Char) : Bool := !(isBlank c || Numeral.accepts c || c == '(')

/-- Whether the character is a minus sign that is read for a number to come, and not as an operator:
there is no complete tree that it could take. -/
def readsSign (c : Char) (f : Frame) : Bool := c == '-' && f.settle.state.complete?.isNone

/-- The number that ends at a character, or at the end of the text. -/
def numberAt (c? : Option Char) (f : Frame) : Option Float := if c?.all ends then f.number? else none

/-- The operator that a character is read as. -/
def operatorAt (c? : Option Char) (f : Frame) : Option Op :=
  c?.bind fun c => if f.readsSign c then none else Op.ofChar? c

/-- What is read at a character, or at the end of the text. -/
def readsAt (c? : Option Char) (f : Frame) : List Label :=
  (f.numberAt c?).toList.map .number ++ (f.operatorAt c?).toList.map .operator

theorem balances_place (t : Tree) (f : Frame) :
    Balances f.labels t.labels (f.place t).state.labels (lost (f.place t).events) := by
  intro k
  unfold place
  split
  · rename_i hr
    simp [labels, hr, Outcome.done, lost, discarded]
  · rename_i root hr
    split
    · rename_i filled hf
      have := Tree.count_fillRight? hf k
      simp [labels, hr, Outcome.done, lost, discarded, this]
    · simp [labels, hr, lost, discarded]

theorem balances_settle {f : Frame} (h : f.settle.error? = none) :
    Balances f.labels (f.number?.toList.map .number) f.settle.state.labels
      (lost f.settle.events) := by
  rcases ht : f.numeral.take with ⟨numeral, e | (_ | x)⟩
  · simp [settle, ht, Outcome.failed] at h
  · intro k
    simp [settle, number?, ht, labels, Outcome.done, lost, discarded]
  · have placed := balances_place (.number x) { f with numeral := numeral }
    simpa [settle, number?, ht, labels] using placed

/-- No operator goes on with a numeral. -/
theorem ends_symbol (op : Op) : ends op.symbol = true := by cases op <;> decide

theorem readsAt_of_not_ends {c : Char} (h : ends c = false) (f : Frame) :
    f.readsAt (some c) = [] := by
  have none : Op.ofChar? c = none := by
    cases ho : Op.ofChar? c with
    | none => rfl
    | some op =>
      rw [Op.ofChar?_eq_some_iff.1 ho, ends_symbol] at h
      cases h
  simp [readsAt, numberAt, operatorAt, h, none]

/-- A parenthesis that closes a group ends a number, and is no operator. -/
theorem readsAt_close (f : Frame) : f.readsAt (some ')') = f.number?.toList.map .number := by
  have number : f.numberAt (some ')') = f.number? := if_pos (by decide)
  have sign : f.readsSign ')' = false := rfl
  have operator : f.operatorAt (some ')') = none := by
    rw [operatorAt, Option.bind_some, sign]
    decide
  rw [readsAt, number, operator]
  exact List.append_nil _

/-- Behind what is settled, an operator takes the tree, and a sign waits for a number. -/
theorem readOperator_of_ok {f : Frame} {c : Char} {p : Position}
    (h : (f.readOperator c p).error? = none) :
    f.settle.error? = none ∧ (f.readOperator c p).events = f.settle.events ∧
      (f.readOperator c p).state.labels =
        f.settle.state.labels ++ (f.operatorAt (some c)).toList.map .operator := by
  rcases f.readOperator_cases c p with
    ⟨hs, ho⟩ | ⟨hs, ⟨op, t, rfl, ht, ho⟩ | ⟨rfl, ht, ho⟩ | ho⟩
  · rw [ho] at h
    rw [h] at hs
    cases hs
  · have tree : f.settle.state.root = some t := (Option.filter_eq_some_iff.1 ht).1
    rw [ho]
    exact ⟨hs, rfl, by simp [labels, tree, operatorAt, readsSign, ht]⟩
  · rw [ho]
    exact ⟨hs, rfl, by simp [labels, operatorAt, readsSign, ht]⟩
  · rw [ho] at h
    cases h

theorem balances_readOperator {f : Frame} {c : Char} {p : Position} (hc : ends c = true)
    (h : (f.readOperator c p).error? = none) :
    Balances f.labels (f.readsAt (some c)) (f.readOperator c p).state.labels
      (lost (f.readOperator c p).events) := by
  obtain ⟨hs, events, after⟩ := readOperator_of_ok h
  have number : f.numberAt (some c) = f.number? := by simp [numberAt, hc]
  intro k
  have settled := balances_settle hs k
  rw [events, after, readsAt, number, List.count_append, List.count_append]
  omega

theorem balances_readChar {f : Frame} {c : Char} {p : Position} (ho : c ≠ '(')
    (h : (f.readChar c p).error? = none) :
    Balances f.labels (f.readsAt (some c)) (f.readChar c p).state.labels
      (lost (f.readChar c p).events) := by
  rcases f.readChar_cases c p with ⟨hb, hr⟩ | ⟨ha, hr⟩ | ⟨hb, ha, hr⟩
  · rw [hr, readsAt_of_not_ends (by simp [ends, hb])]
    intro k
    rfl
  · rw [hr, readsAt_of_not_ends (by simp [ends, ha])]
    intro k
    rfl
  · rw [hr] at h ⊢
    exact balances_readOperator (by simp [ends, hb, ha, ho]) h

end Frame

/-! ## Stacks -/

namespace Stack

/-- The labels of all trees on the stack. -/
def labels (m : Stack) : List Label := m.top.labels ++ m.below.flatMap Frame.labels

theorem balances_close {m : Stack} {f : Frame} {fs : List Frame} (hb : m.below = f :: fs)
    (h : (m.close f fs).error? = none) :
    Balances m.labels (m.top.readsAt (some ')')) (m.close f fs).state.labels
      (lost (m.close f fs).events) := by
  intro k
  have before : m.labels.count k =
      m.top.labels.count k + (f.labels.count k + (fs.flatMap Frame.labels).count k) := by
    rw [labels, hb, List.flatMap_cons, List.count_append, List.count_append]
  rw [Frame.readsAt_close, before]
  rcases close_cases m f fs with ⟨e, -, hk⟩ | ⟨hs, hr, hk⟩ | ⟨hs, t, hr, hk⟩
  · rw [hk] at h
    cases h
  · have settled := Frame.balances_settle hs k
    have nothing : m.top.settle.state.labels = [] := by simp [Frame.labels, hr]
    have events : lost [.closed none] = [] := rfl
    rw [nothing, List.count_nil] at settled
    simp only [hk, labels, lost_append, events, List.count_append, List.count_nil]
    omega
  · have settled := Frame.balances_settle hs k
    have placed := Frame.balances_place t f k
    have tree : m.top.settle.state.labels = t.labels := by simp [Frame.labels, hr]
    have events (es : List Event) : lost (.closed t :: es) = lost es := rfl
    rw [tree] at settled
    simp only [hk, labels, lost_append, events, List.count_append]
    omega

/-- **One character** adds what it reads to the trees on the stack, or to those discarded. -/
theorem balances_step {m : Stack} (hf : m.finished = false) {c : Char}
    (h : (m.step c).error? = none) :
    Balances m.labels (m.top.readsAt (some c)) (m.step c).state.labels
      (lost (m.step c).events) := by
  rcases step_cases hf c with ⟨rfl, hs⟩ | ⟨rfl, f, fs, hb, hs⟩ | ⟨ho, -, hs⟩
  · rw [hs, Frame.readsAt_of_not_ends (by decide)]
    intro k
    simp [labels, Frame.labels, Frame.empty, lost, discarded]
  · rw [hs] at h ⊢
    exact balances_close hb h
  · rw [hs] at h ⊢
    have read := Frame.balances_readChar (p := m.position) ho h
    intro k
    have := read k
    simp only [labels, readOwn, Outcome.map, List.count_append] at this ⊢
    omega

/-! ## Texts -/

section
variable {α : Type}

/-- What is seen in the frame on the top, at each character and at the end of a text. -/
def along (see : Option Char → Frame → List α) : List Char → Stack → List α
  | [], m => see none m.top
  | c :: cs, m => see (some c) m.top ++ along see cs (m.step c).state

end

/-- The end of a text ends a number. -/
theorem balances_finish {m : Stack} (hf : m.finished = false) (h : m.finish.error? = none) :
    Balances m.labels (m.top.readsAt none) m.finish.state.labels (lost m.finish.events) := by
  unfold finish at h ⊢
  rw [hf, if_neg Bool.false_ne_true] at h ⊢
  by_cases hb : 0 < m.below.length
  · rw [if_pos hb] at h
    cases h
  · rw [if_neg hb] at h ⊢
    have reads : m.top.readsAt none = m.top.number?.toList.map .number := List.append_nil _
    intro k
    have := Frame.balances_settle h k
    simp only [labels, Outcome.map, reads, List.count_append] at this ⊢
    omega

/-- **A text** adds all that its characters read. -/
theorem balances_readAll {cs : List Char} {m : Stack} (hf : m.finished = false)
    (h : ((feed cs m).andThen finish).error? = none) :
    Balances m.labels (along Frame.readsAt cs m) ((feed cs m).andThen finish).state.labels
      (lost ((feed cs m).andThen finish).events) := by
  induction cs generalizing m with
  | nil => exact balances_finish hf h
  | cons c cs ih =>
    rw [feed, Outcome.andThen_assoc] at h ⊢
    obtain ⟨hs, hn⟩ := Outcome.andThen_eq_none_iff.1 h
    have first := balances_step hf hs
    have rest := ih (finished_step hf c) hn
    rw [Outcome.andThen_of_ok hs, along]
    intro k
    have := first k
    have := rest k
    simp only [lost_append, List.count_append]
    omega

end Stack

/-! ## Readers -/

namespace Reader

/-- The frame that characters are read in. -/
def current : Reader → Frame
  | innermost l => l.frame
  | enclosing _ inner => inner.current

/-- What is seen in the frame that characters are read in, at each character and at the end of a
text. -/
def along {α : Type} (see : Option Char → Frame → List α) : List Char → Reader → List α
  | [], r => see none r.current
  | c :: cs, r => see (some c) r.current ++ along see cs (r.step c).state

/-- The numbers that end in a text, in whatever frame. -/
def numbersOf (text : String) : List Float :=
  along (fun c? f => (f.numberAt c?).toList) text.toList start

/-- The minus signs of a text that are read for a number to come, and not as operators. -/
def signsOf (text : String) : List Char :=
  along (fun c? f => (c?.filter (f.readsSign ·)).toList) text.toList start

theorem flatten_top_eq_current (r : Reader) : r.flatten.top = r.current := by
  induction r with
  | innermost l => rfl
  | enclosing l inner ih => exact ih

theorem along_flatten {α : Type} (see : Option Char → Frame → List α) {heard : List Char}
    {r : Reader} (ht : r.Tracks heard) (hf : r.isFinished = false) (cs : List Char) :
    Stack.along see cs r.flatten = along see cs r := by
  induction cs generalizing heard r with
  | nil => rw [Stack.along, along, flatten_top_eq_current]
  | cons c cs ih =>
    have next := ih (tracks_step ht hf c) (isFinished_step hf c)
    rw [Stack.along, along, flatten_top_eq_current, flatten_step ht.1]
    exact congrArg _ next

end Reader

/-! ## Counting -/

theorem Stack.filterMap_along {α β : Type} (see : Option Char → Frame → List α) (g : α → Option β)
    (cs : List Char) (m : Stack) :
    (along see cs m).filterMap g = along (fun c? f => (see c? f).filterMap g) cs m := by
  induction cs generalizing m with
  | nil => rfl
  | cons c cs ih => rw [along, along, List.filterMap_append, ih]

/-- The trees account for the text: each number that ends in it is one leaf of one of them, and each
character that is read as an operator is one node of one of them. -/
structure Accounts (text : String) (trees : List Tree) : Prop where
  numbers : ((trees.flatMap Tree.labels).filterMap Label.number?).Perm (Reader.numbersOf text)
  operators : ∀ op, op ≠ .sub →
    (trees.flatMap Tree.labels).count (.operator op) = text.toList.count op.symbol
  minus : (trees.flatMap Tree.labels).count (.operator .sub) + (Reader.signsOf text).length =
    text.toList.count '-'

theorem Frame.filterMap_readsAt (c? : Option Char) (f : Frame) :
    (f.readsAt c?).filterMap Label.number? = (f.numberAt c?).toList := by
  rw [readsAt, List.filterMap_append]
  cases f.numberAt c? <;> cases f.operatorAt c? <;> rfl

/-- The symbol of an operator is read as that operator, or it is a sign. -/
theorem Frame.count_readsAt (f : Frame) (c : Char) (op : Op) :
    (f.readsAt (some c)).count (.operator op) +
        (if op = .sub then ((some c).filter (f.readsSign ·)).toList.length else 0) =
      [c].count op.symbol := by
  have numbers : ((f.numberAt (some c)).toList.map Label.number).count (.operator op) = 0 :=
    List.count_eq_zero.2 (by simp)
  rw [readsAt, List.count_append, numbers, Nat.zero_add, operatorAt, Option.bind_some,
    List.count_singleton]
  cases hs : f.readsSign c with
  | true =>
    have minus : c = Op.symbol .sub := by
      simp only [readsSign, Bool.and_eq_true, beq_iff_eq] at hs
      exact hs.1
    by_cases ho : op = .sub
    · rw [minus] at hs
      simp [ho, minus, hs]
    · have other : c ≠ op.symbol := by
        rintro rfl
        exact ho (Op.symbol_injective minus)
      simp [ho, other]
  | false =>
    cases hc : Op.ofChar? c with
    | none =>
      have other : c ≠ op.symbol := by
        rintro rfl
        rw [Op.ofChar?_symbol] at hc
        cases hc
      simp [hs, other]
    | some found =>
      obtain rfl := Op.ofChar?_eq_some_iff.1 hc
      by_cases ho : found = op
      · subst ho; simp [hs]
      · have other : found.symbol ≠ op.symbol := fun h => ho (Op.symbol_injective h)
        simp [hs, ho, other]

theorem Stack.count_along (cs : List Char) (m : Stack) (op : Op) :
    (along Frame.readsAt cs m).count (.operator op) +
        (if op = .sub then (along (fun c? f => (c?.filter (f.readsSign ·)).toList) cs m).length
          else 0) =
      cs.count op.symbol := by
  induction cs generalizing m with
  | nil =>
    have numbers : (m.top.readsAt none).count (.operator op) = 0 :=
      List.count_eq_zero.2 (by simp [Frame.readsAt, Frame.operatorAt])
    simp [along, numbers]
  | cons c cs ih =>
    have first := m.top.count_readsAt c op
    have rest := ih (m.step c).state
    rw [along, along, List.count_append, List.length_append, ← List.singleton_append,
      List.count_append]
    split at first
    · rename_i ho
      rw [if_pos ho] at rest ⊢
      omega
    · rename_i ho
      rw [if_neg ho] at rest ⊢
      omega

namespace Reader

/-- All that is read in a text that can be read is in its tree, or was discarded. -/
theorem perm_of_read {text : String} {r : Reader} (h : (read text).toExcept = .ok r) :
    ((r.root.toList ++ discarded (read text).events).flatMap Tree.labels).Perm
      (Stack.along Frame.readsAt text.toList Stack.start) := by
  have whole := readAll_toList text
  rw [h] at whole
  obtain ⟨he, rfl⟩ := Outcome.toExcept_eq_ok_iff.1 h
  obtain ⟨-, -, -, closed⟩ := Stack.readAll_ok rfl whole
  have same : (Stack.feed text.toList Stack.start).andThen Stack.finish = (read text).map flatten :=
    flatten_read text
  have ok : ((Stack.feed text.toList Stack.start).andThen Stack.finish).error? = none := by
    rw [same]; exact he
  have balances := Stack.balances_readAll rfl ok
  rw [same] at balances
  have tree : (read text).state.flatten.labels =
      (read text).state.root.toList.flatMap Tree.labels := by
    rw [← flatten_root, closed, Stack.labels, Stack.root]
    cases h : (read text).state.flatten.top.root <;> simp [Frame.labels, h]
  rw [List.perm_iff_count]
  intro k
  rw [List.flatMap_append, List.count_append, ← tree]
  exact (balances k).trans (Nat.zero_add _)

/-- **Nothing vanishes.** All numbers that end in a text and all its operators are in its tree and in
the operands that were discarded while it was read, each of them once. -/
theorem accounts_of_read {text : String} {r : Reader} (h : (read text).toExcept = .ok r) :
    Accounts text (r.root.toList ++ discarded (read text).events) ∧
      (discarded (read text).events = [] → Accounts text r.root.toList) := by
  have read := perm_of_read h
  have all : Accounts text (r.root.toList ++ discarded (Reader.read text).events) := by
    constructor
    · have numbers := read.filterMap Label.number?
      simp only [Stack.filterMap_along, Frame.filterMap_readsAt] at numbers
      rwa [← flatten_start, along_flatten _ tracks_start rfl] at numbers
    · intro op ho
      have count := Stack.count_along text.toList Stack.start op
      rw [if_neg ho, Nat.add_zero] at count
      rw [read.count_eq, count]
    · have count := Stack.count_along text.toList Stack.start .sub
      rw [if_pos rfl, ← read.count_eq] at count
      rwa [← flatten_start, along_flatten _ tracks_start rfl] at count
  refine ⟨all, ?_⟩
  intro none
  rwa [none, List.append_nil] at all

/-- A group with a number inside that has no place, which has no place itself, and a sign that waits
for a number behind an operator. -/
theorem accounts_of_read_discarded :
    let text := "-(1-2)(3(4)*-5)-6"
    (read text).toExcept = .ok (read text).state ∧
      Accounts text ((read text).state.root.toList ++ discarded (read text).events) := by
  intro text
  have h : (read text).toExcept = .ok (read text).state :=
    Outcome.toExcept_eq_ok_iff.2 ⟨by decide, rfl⟩
  exact ⟨h, (accounts_of_read h).1⟩

end Reader

end Reckoner
