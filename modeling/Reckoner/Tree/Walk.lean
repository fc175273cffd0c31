import Reckoner.Tree.Basic
/-!
# Walking a tree

All nodes in post-order: the left operand, the right one if there is one, then the node itself.

Results:
* `walk_eq_foldl`: a walk folds over the list of nodes in post-order.
* `any_eq_any_postorder`: a walk finds a node exactly if the list holds one.
-/
namespace Reckoner.Tree

variable {β : Type}

/-- Folds over all nodes in post-order. -/
def walk (visit : β → Tree → β) (start : β) : Tree → β
  | number x => visit start (number x)
  | pending op l => visit (l.walk visit start) (pending op l)
  | binary op l r => visit (r.walk visit (l.walk visit start)) (binary op l r)

def postorder : Tree → List Tree
  | number x => [number x]
  | pending op l => l.postorder ++ [pending op l]
  | binary op l r => l.postorder ++ r.postorder ++ [binary op l r]

/-- Whether some node has the property. Every node is asked. -/
def any (p : Tree → Bool) (t : Tree) : Bool := t.walk (fun found node => p node || found) false

/-- Whether every node has all its operands. -/
def isFullyComplete (t : Tree) : Bool := !t.any fun node => !node.isComplete

theorem walk_eq_foldl (visit : β → Tree → β) (start : β) (t : Tree) :
    t.walk visit start = t.postorder.foldl visit start := by
  induction t generalizing start with
  | number x => rfl
  | pending op l ihl => simp [walk, postorder, ihl]
  | binary op l r ihl ihr => simp [walk, postorder, ihl, ihr]

theorem any_eq_any_postorder (p : Tree → Bool) (t : Tree) : t.any p = t.postorder.any p := by
  have found (nodes : List Tree) (b : Bool) :
      nodes.foldl (fun found node => p node || found) b = (b || nodes.any p) := by
    induction nodes generalizing b with
    | nil => simp
    | cons n ns ih => rw [List.foldl_cons, ih, List.any_cons]; cases b <;> cases p n <;> rfl
  rw [any, walk_eq_foldl, found, Bool.false_or]

end Reckoner.Tree
