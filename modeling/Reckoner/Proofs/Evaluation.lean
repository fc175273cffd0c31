import Reckoner.Tree.Walk
/-!
# Evaluation along the walk

A tree has a value exactly if no node of it misses an operand, and the value can be found without
recursion: the nodes are taken in the order of the walk, and a stack holds the values of the
operands that wait for their operator.

Results:
* `postOrder_postorder`: the walk comes to every place once, to operands before their operator, and
  to the left operand before the right one.
* `foldlM_compute`: the nodes that are walked through put the value of the tree on the stack.
* `firstIncomplete?_postorder`: what evaluation fails for is the first node on the way that misses an
  operand.
* `evaluate_along_walk`: evaluation, the walk and the search for a node, together.
-/
namespace Reckoner

/-! ## Places -/

/-- On which side of its operator an operand stands. -/
inductive Side where
  | left | right
deriving DecidableEq

/-- A place in a tree, by the way that leads to it from the top. -/
abbrev Place := List Side

/-- What is to be walked through first: what stands below a place before the place itself, and what
stands on the left of an operator before what stands on the right. -/
inductive Precedes : Place → Place → Prop
  | operand (s : Side) (p : Place) : Precedes (s :: p) []
  | beside (p q : Place) : Precedes (.left :: p) (.right :: q)
  | inside (s : Side) {p q : Place} (h : Precedes p q) : Precedes (s :: p) (s :: q)

theorem Precedes.ne {p q : Place} (h : Precedes p q) : p ≠ q := by
  induction h with
  | operand s p => exact List.cons_ne_nil s p
  | beside p q => exact fun e => Side.noConfusion (List.cons.inj e).1
  | inside s h ih => exact fun e => ih (List.cons.inj e).2

namespace Tree

/-- The node at a place, with all that is below it. -/
def at? : Tree → Place → Option Tree
  | t, [] => some t
  | pending _ l, .left :: p => l.at? p
  | binary _ l _, .left :: p => l.at? p
  | binary _ _ r, .right :: p => r.at? p
  | _, _ :: _ => none

theorem at?_nil (t : Tree) : t.at? [] = some t := by cases t <;> rfl

theorem at?_number_cons (x : Float) (s : Side) (p : Place) : (number x).at? (s :: p) = none := by
  cases s <;> rfl

/-- All places of a tree, in post-order. -/
def places : Tree → List Place
  | number _ => [[]]
  | pending _ l => l.places.map (.left :: ·) ++ [[]]
  | binary _ l r => l.places.map (.left :: ·) ++ r.places.map (.right :: ·) ++ [[]]

/-- The nodes are those at all the places of the tree, each place once, in the order that the walk
is meant to have. -/
def PostOrder (t : Tree) (nodes : List Tree) : Prop :=
  ∃ places : List Place, nodes.map some = places.map t.at? ∧
    (∀ p, p ∈ places ↔ (t.at? p).isSome = true) ∧ places.Nodup ∧ places.Pairwise Precedes

theorem map_at?_places (t : Tree) : t.places.map t.at? = t.postorder.map some := by
  induction t with
  | number x => rfl
  | pending op l ihl =>
    have below : (at? (pending op l)) ∘ (Side.left :: ·) = l.at? := rfl
    simp only [places, postorder, List.map_append, List.map_map, below, ihl]
    rfl
  | binary op l r ihl ihr =>
    have left : (at? (binary op l r)) ∘ (Side.left :: ·) = l.at? := rfl
    have right : (at? (binary op l r)) ∘ (Side.right :: ·) = r.at? := rfl
    simp only [places, postorder, List.map_append, List.map_map, left, right, ihl, ihr]
    rfl

theorem mem_places_iff {t : Tree} {p : Place} : p ∈ t.places ↔ (t.at? p).isSome = true := by
  induction t generalizing p with
  | number x =>
    cases p with
    | nil => simp [places, at?]
    | cons s p => simp [places, at?_number_cons]
  | pending op l ihl =>
    rcases p with _ | ⟨_ | _, p⟩
    · simp [places, at?]
    · simp [places, at?, ihl]
    · simp [places, at?]
  | binary op l r ihl ihr =>
    rcases p with _ | ⟨_ | _, p⟩
    · simp [places, at?]
    · simp [places, at?, ihl]
    · simp [places, at?, ihr]

theorem pairwise_inside {places : List Place} (h : places.Pairwise Precedes) (s : Side) :
    (places.map (s :: ·)).Pairwise Precedes :=
  List.pairwise_map.2 (h.imp fun h => .inside s h)

theorem pairwise_places (t : Tree) : t.places.Pairwise Precedes := by
  have top {s : Side} {places : List Place} :
      ∀ p ∈ places.map (s :: ·), ∀ q ∈ ([[]] : List Place), Precedes p q := by
    intro p hp q hq
    obtain ⟨p, -, rfl⟩ := List.mem_map.1 hp
    rw [List.mem_singleton.1 hq]
    exact .operand s p
  induction t with
  | number x => exact List.pairwise_singleton _ _
  | pending op l ihl =>
    exact List.pairwise_append.2 ⟨pairwise_inside ihl .left, List.pairwise_singleton _ _, top⟩
  | binary op l r ihl ihr =>
    have operands : (l.places.map (Side.left :: ·) ++ r.places.map (Side.right :: ·)).Pairwise
        Precedes := by
      refine List.pairwise_append.2 ⟨pairwise_inside ihl .left, pairwise_inside ihr .right, ?_⟩
      intro p hp q hq
      obtain ⟨p, -, rfl⟩ := List.mem_map.1 hp
      obtain ⟨q, -, rfl⟩ := List.mem_map.1 hq
      exact .beside p q
    refine List.pairwise_append.2 ⟨operands, List.pairwise_singleton _ _, ?_⟩
    intro p hp
    rcases List.mem_append.1 hp with hp | hp
    · exact top p hp
    · exact top p hp

theorem postOrder_postorder (t : Tree) : t.PostOrder t.postorder :=
  ⟨t.places, (map_at?_places t).symm, fun _ => mem_places_iff, (pairwise_places t).imp Precedes.ne,
    pairwise_places t⟩

/-- The nodes of a tree are those that stand somewhere in it. -/
theorem mem_postorder_iff {t node : Tree} :
    node ∈ t.postorder ↔ ∃ place, t.at? place = some node := by
  have mem : some node ∈ t.postorder.map some ↔ some node ∈ t.places.map t.at? := by
    rw [map_at?_places]
  simp only [List.mem_map, Option.some.injEq, exists_eq_right] at mem
  rw [mem]
  constructor
  · rintro ⟨p, -, h⟩
    exact ⟨p, h⟩
  · rintro ⟨p, h⟩
    exact ⟨p, mem_places_iff.2 (by rw [h]; rfl), h⟩

/-! ## Evaluation on a stack -/

/-- Why a computation on a stack stops. -/
inductive Halt where
  /-- An operator misses its right operand. -/
  | missing (op : Op)
  /-- There are fewer values than an operator takes. -/
  | underflow
deriving DecidableEq

/-- What evaluation fails for, as a reason to stop. -/
def haltOf : EvalError → Halt
  | .missingOperand op => .missing op

/-- One node on the way: a number is put on the stack, and an operator takes two values from it, the
right operand first. -/
def compute : List Float → Tree → Except Halt (List Float)
  | stack, number x => .ok (x :: stack)
  | _, pending op _ => .error (.missing op)
  | y :: x :: stack, binary op _ _ => .ok (op.apply x y :: stack)
  | _, binary _ _ _ => .error .underflow

/-- **The value of a tree is put on the stack** by its nodes, whatever is on the stack before. -/
theorem foldlM_compute (t : Tree) (stack : List Float) :
    t.postorder.foldlM compute stack = (t.evaluate.map (· :: stack)).mapError haltOf := by
  induction t generalizing stack with
  | number x => rfl
  | pending op l ihl =>
    rw [postorder, List.foldlM_append, ihl, evaluate]
    cases l.evaluate <;> rfl
  | binary op l r ihl ihr =>
    rw [postorder, List.foldlM_append, List.foldlM_append, ihl, evaluate]
    cases l.evaluate with
    | error e => rfl
    | ok x =>
      change (r.postorder.foldlM compute (x :: stack)).bind ([binary op l r].foldlM compute ·) = _
      rw [ihr]
      cases r.evaluate <;> rfl

/-! ## Missing operands -/

/-- The first node on the way that misses an operand. -/
def firstIncomplete? (nodes : List Tree) : Option Tree := nodes.find? fun node => !node.isComplete

/-- **Evaluation fails for the first node that misses an operand**, if there is one. -/
theorem firstIncomplete?_postorder (t : Tree) :
    match t.evaluate with
    | .ok _ => firstIncomplete? t.postorder = none
    | .error (.missingOperand op) => ∃ l, firstIncomplete? t.postorder = some (pending op l) := by
  induction t with
  | number x => rfl
  | pending op l ihl =>
    rw [evaluate, postorder, firstIncomplete?, List.find?_append]
    rw [firstIncomplete?] at ihl
    rcases h : l.evaluate with ⟨⟨missing⟩⟩ | x
    · rw [h] at ihl
      obtain ⟨m, ihl⟩ := ihl
      exact ⟨m, by rw [ihl]; rfl⟩
    · rw [h] at ihl
      exact ⟨l, by rw [ihl]; rfl⟩
  | binary op l r ihl ihr =>
    rw [evaluate, postorder, firstIncomplete?, List.find?_append, List.find?_append]
    rw [firstIncomplete?] at ihl ihr
    rcases hl : l.evaluate with ⟨⟨missing⟩⟩ | x
    · rw [hl] at ihl
      obtain ⟨m, ihl⟩ := ihl
      exact ⟨m, by rw [ihl]; rfl⟩
    · rw [hl] at ihl
      rcases hr : r.evaluate with ⟨⟨missing⟩⟩ | y
      · rw [hr] at ihr
        obtain ⟨m, ihr⟩ := ihr
        exact ⟨m, by rw [ihl, ihr]; rfl⟩
      · rw [hr] at ihr
        show _ = none
        rw [ihl, ihr]
        rfl

theorem isOk_evaluate (t : Tree) : t.evaluate.isOk = t.isFullyComplete := by
  have first := t.firstIncomplete?_postorder
  have complete : t.isFullyComplete = (firstIncomplete? t.postorder).isNone := by
    rw [isFullyComplete, any_eq_any_postorder, firstIncomplete?, ← List.isSome_find?,
      Option.not_isSome]
  rw [complete]
  rcases h : t.evaluate with ⟨⟨op⟩⟩ | x
  · rw [h] at first
    obtain ⟨l, first⟩ := first
    rw [first]
    rfl
  · rw [h] at first
    change firstIncomplete? t.postorder = none at first
    rw [first]
    rfl

theorem evaluate_eq_error_iff {t : Tree} {op : Op} :
    t.evaluate = .error (.missingOperand op) ↔
      ∃ l, firstIncomplete? t.postorder = some (pending op l) := by
  have first := t.firstIncomplete?_postorder
  rcases h : t.evaluate with ⟨⟨missing⟩⟩ | x
  · rw [h] at first
    obtain ⟨m, first⟩ := first
    simp [first]
  · rw [h] at first
    change firstIncomplete? t.postorder = none at first
    simp [first]

/-- The nodes in the order in which a walk comes to them. -/
def walked (t : Tree) : List Tree := t.walk (fun nodes node => nodes ++ [node]) []

theorem walked_eq_postorder (t : Tree) : t.walked = t.postorder := by
  have collected (nodes found : List Tree) :
      nodes.foldl (fun nodes node => nodes ++ [node]) found = found ++ nodes := by
    induction nodes generalizing found with
    | nil => exact (List.append_nil found).symm
    | cons node nodes ih => rw [List.foldl_cons, ih, List.append_assoc, List.singleton_append]
  rw [walked, walk_eq_foldl, collected, List.nil_append]

/-- **Evaluation agrees with the walk.** The walk comes to each place of a tree once, in post-order.
The nodes that it comes to make a stack without values hold the value of the tree and nothing else,
and none of them finds too few values; if a node misses an operand, they stop at the first such
node, which is what evaluation fails for. So the trees that have a value are those without such a
node, and nodes of any kind are searched for at all places. -/
theorem evaluate_along_walk (t : Tree) :
    t.PostOrder t.walked ∧
    (∀ {β : Type} (visit : β → Tree → β) (start : β),
      t.walk visit start = t.walked.foldl visit start) ∧
    t.walked.foldlM compute [] = (match t.evaluate with
      | .ok x => .ok [x]
      | .error (.missingOperand op) => .error (.missing op)) ∧
    t.evaluate.isOk = t.isFullyComplete ∧
    (∀ op, t.evaluate = .error (.missingOperand op) ↔
      ∃ l, firstIncomplete? t.walked = some (pending op l)) ∧
    ∀ p, t.any p = true ↔ ∃ place node, t.at? place = some node ∧ p node = true := by
  rw [walked_eq_postorder]
  refine ⟨postOrder_postorder t, fun visit start => walk_eq_foldl visit start t, ?_,
    isOk_evaluate t, fun op => evaluate_eq_error_iff, ?_⟩
  · rw [foldlM_compute]
    rcases t.evaluate with ⟨⟨op⟩⟩ | x <;> rfl
  · intro p
    rw [any_eq_any_postorder, List.any_eq_true]
    constructor
    · rintro ⟨node, hn, hp⟩
      obtain ⟨place, h⟩ := mem_postorder_iff.1 hn
      exact ⟨place, node, h, hp⟩
    · rintro ⟨place, node, h, hp⟩
      exact ⟨node, mem_postorder_iff.2 ⟨place, h⟩, hp⟩

end Tree

end Reckoner
