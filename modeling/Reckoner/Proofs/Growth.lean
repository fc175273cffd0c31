import Reckoner.Proofs.Evaluation
import Reckoner.Proofs.Groups
import Mathlib.Logic.Relation
/-!
# Trees only grow

A tree is built from the left to the right, and only at its top: an operand becomes the tree, or the
operand that the top node misses, or an operator takes the whole tree. So what stands on the left of
an operator misses nothing at its own top, and what was placed once stays where it is.

Results:
* `Frame.grows_readChar`, `Frame.wellGrown_readChar`: whatever a frame reads.
* `Stack.grows_step`, `Stack.wellGrown_step`: one character, whether or not it fails.
* `Grows.kept`: nothing is lost in a tree that grows.
* `Reader.grows_of_session`: the trees of a reader in a session.
-/
namespace Reckoner

open Relation (ReflTransGen)

/-! ## Trees -/

namespace Tree

/-- Whatever stands on the left of an operator is complete at its own top, and all numbers are
numbers. -/
inductive WellGrown : Tree → Prop
  | number {x : Float} (isNumber : x.isNaN = false) : WellGrown (number x)
  | pending (op : Op) {l : Tree} (complete : l.isComplete = true) (left : WellGrown l) :
    WellGrown (pending op l)
  | binary (op : Op) {l r : Tree} (complete : l.isComplete = true) (left : WellGrown l)
    (right : WellGrown r) : WellGrown (binary op l r)

/-- A node that misses its right operand is no left operand. -/
theorem WellGrown.not_left {t l : Tree} {op : Op} {place : Place} (h : t.WellGrown)
    (hp : t.at? place = some (.pending op l)) : place.getLast? ≠ some .left := by
  induction place generalizing t with
  | nil => exact fun e => nomatch e
  | cons s place ih =>
    have inside {u : Tree} (hu : u.WellGrown) (hp : u.at? place = some (.pending op l))
        (hs : s = .left → u.isComplete = true) : (s :: place).getLast? ≠ some .left := by
      cases place with
      | nil =>
        rw [at?_nil] at hp
        cases hp
        rw [List.getLast?_singleton]
        intro he
        cases hs (Option.some.inj he)
      | cons s' place =>
        rw [List.getLast?_cons_cons]
        exact ih hu hp
    cases h with
    | number => rw [at?_number_cons] at hp; cases hp
    | pending op' complete left =>
      cases s with
      | left => exact inside left hp fun _ => complete
      | right => cases hp
    | binary op' complete left right =>
      cases s with
      | left => exact inside left hp fun _ => complete
      | right => exact inside right hp fun e => Side.noConfusion e

/-- All that stands in the one tree stands in the other, further down on the left; the top node
alone may have got an operand that it missed. -/
def Kept (t u : Tree) : Prop :=
  ∃ k, ∀ place node, t.at? place = some node → (place ≠ [] ∨ node.isComplete = true) →
    u.at? (List.replicate k .left ++ place) = some node

end Tree

/-- What can happen to the tree of a frame, if there is one. -/
inductive Grows : Option Tree → Option Tree → Prop
  /-- An operand becomes the tree. -/
  | set (t : Tree) : Grows none (some t)
  /-- The operand that the top node misses is filled in. -/
  | fill (op : Op) (l operand : Tree) : Grows (some (.pending op l)) (some (.binary op l operand))
  /-- An operator takes the whole tree as its left operand, and misses the right one. -/
  | wrap (op : Op) {t : Tree} (complete : t.isComplete = true) :
    Grows (some t) (some (.pending op t))

namespace Grows

theorem exists_kept {t u : Tree} {v? : Option Tree} (h : Grows (some u) v?) (hk : t.Kept u) :
    ∃ v, v? = some v ∧ t.Kept v := by
  obtain ⟨k, hk⟩ := hk
  cases h with
  | fill op l operand =>
    refine ⟨_, rfl, k, ?_⟩
    intro place node hp hn
    have stood := hk place node hp hn
    -- The top node of `u` is not complete, so what is kept stands on its left.
    match hw : List.replicate k Side.left ++ place with
    | [] =>
      rw [hw] at stood
      cases stood
      have top : place = [] := (List.append_eq_nil_iff.1 hw).2
      rcases hn with hn | hn
      · exact absurd top hn
      · cases hn
    | .left :: way => rw [hw] at stood; exact stood
    | .right :: way => rw [hw] at stood; cases stood
  | wrap op complete =>
    refine ⟨_, rfl, k + 1, ?_⟩
    intro place node hp hn
    rw [List.replicate_succ, List.cons_append]
    exact hk place node hp hn

/-- **Nothing is lost** in a tree that grows. -/
theorem kept {t : Tree} {u? : Option Tree} (h : ReflTransGen Grows (some t) u?) :
    ∃ u, u? = some u ∧ t.Kept u := by
  induction h with
  | refl => exact ⟨t, rfl, 0, fun place node hp _ => hp⟩
  | tail _ step ih =>
    obtain ⟨u, rfl, hk⟩ := ih
    exact step.exists_kept hk

/-- An operand that is placed lets a tree grow, or is discarded. -/
theorem put (root : Option Tree) (t : Tree) : ReflTransGen Grows root (Progress.put root t) := by
  match root with
  | none => exact .single (.set t)
  | some (.pending op l) => exact .single (.fill op l t)
  | some (.number x) => exact .refl
  | some (.binary op l r) => exact .refl

end Grows

/-! ## Frames -/

/-- No numeral denotes a NaN. -/
theorem Numeral.isNaN_of_value? {n : Numeral} {x : Float} (h : n.value? = some x) :
    x.isNaN = false := by
  obtain ⟨d, -, rfl⟩ := Option.map_eq_some_iff.1 h
  rw [Signed.isNaN_eq, Signed.ofFloat?_toFloat]
  rfl

namespace Frame

def WellGrown (f : Frame) : Prop := ∀ t, f.root = some t → t.WellGrown

theorem wellGrown_empty : empty.WellGrown := fun _ h => nomatch h

theorem grows_place (t : Tree) (f : Frame) :
    ReflTransGen Grows f.root (f.place t).state.root := by
  rw [place_state]
  exact Grows.put f.root t

theorem wellGrown_place {t : Tree} {f : Frame} (hf : f.WellGrown) (ht : t.WellGrown) :
    (f.place t).state.WellGrown := by
  obtain ⟨numeral, root⟩ := f
  rw [place_state]
  intro u hu
  cases root with
  | none => cases hu; exact ht
  | some r =>
    cases hf r rfl with
    | number isNumber => cases hu; exact .number isNumber
    | pending op complete left => cases hu; exact .binary op complete left ht
    | binary op complete left right => cases hu; exact .binary op complete left right

theorem grows_settle (f : Frame) : ReflTransGen Grows f.root f.settle.state.root := by
  rcases f.settle_cases with ⟨-, hs⟩ | ⟨-, x, -, hs⟩ | ⟨-, -, hs⟩
  · rw [hs]; exact .refl
  · rw [hs]; exact grows_place (.number x) { f with numeral := .empty }
  · rw [hs]; exact .refl

theorem wellGrown_settle {f : Frame} (h : f.WellGrown) : f.settle.state.WellGrown := by
  rcases f.settle_cases with ⟨-, hs⟩ | ⟨-, x, hv, hs⟩ | ⟨-, -, hs⟩
  · rw [hs]; exact h
  · rw [hs]
    exact wellGrown_place (f := { f with numeral := .empty }) h
      (.number (Numeral.isNaN_of_value? hv))
  · rw [hs]; exact h

/-- **Whatever a frame reads**, its tree grows. -/
theorem grows_readChar (f : Frame) (c : Char) (p : Position) :
    ReflTransGen Grows f.root (f.readChar c p).state.root := by
  have settled := f.grows_settle
  rcases f.readChar_cases c p with ⟨-, hr⟩ | ⟨-, hr⟩ | ⟨-, -, hr⟩
  · rw [hr]; exact .refl
  · rw [hr]; exact .refl
  · rw [hr]
    rcases f.readOperator_cases c p with ⟨-, ho⟩ | ⟨-, ⟨op, t, -, ht, ho⟩ | ⟨-, -, ho⟩ | ho⟩
    · rw [ho]; exact settled
    · rw [ho]
      obtain ⟨root, complete⟩ := Option.filter_eq_some_iff.1 ht
      rw [root] at settled
      exact settled.tail (.wrap op complete)
    · rw [ho]; exact settled
    · rw [ho]; exact settled

theorem wellGrown_readChar {f : Frame} (h : f.WellGrown) (c : Char) (p : Position) :
    (f.readChar c p).state.WellGrown := by
  have settled := wellGrown_settle h
  rcases f.readChar_cases c p with ⟨-, hr⟩ | ⟨-, hr⟩ | ⟨-, -, hr⟩
  · rw [hr]; exact h
  · rw [hr]; exact h
  · rw [hr]
    rcases f.readOperator_cases c p with ⟨-, ho⟩ | ⟨-, ⟨op, t, -, ht, ho⟩ | ⟨-, -, ho⟩ | ho⟩
    · rw [ho]; exact settled
    · rw [ho]
      obtain ⟨root, complete⟩ := Option.filter_eq_some_iff.1 ht
      intro u hu
      cases hu
      exact .pending op complete (settled t root)
    · rw [ho]; exact settled
    · rw [ho]; exact settled

end Frame

/-! ## Stacks -/

namespace Stack

def WellGrown (m : Stack) : Prop := ∀ f ∈ m.top :: m.below, f.WellGrown

theorem wellGrown_cons {f : Frame} {fs : List Frame} {p : Position} {finished : Bool}
    (hf : f.WellGrown) (hs : ∀ g ∈ fs, g.WellGrown) : (⟨f, fs, p, finished⟩ : Stack).WellGrown :=
  List.forall_mem_cons.2 ⟨hf, hs⟩

theorem wellGrown_step (m : Stack) (c : Char) (hf : m.finished = false) (h : m.WellGrown) :
    (m.step c).state.WellGrown := by
  obtain ⟨top, below⟩ := List.forall_mem_cons.1 h
  rcases step_cases hf c with ⟨-, hs⟩ | ⟨-, f, fs, hb, hs⟩ | ⟨-, -, hs⟩
  · rw [hs]
    exact wellGrown_cons Frame.wellGrown_empty h
  · rw [hs]
    rw [hb] at below
    obtain ⟨around, below⟩ := List.forall_mem_cons.1 below
    rcases close_cases m f fs with ⟨e, -, hk⟩ | ⟨-, -, hk⟩ | ⟨-, t, ht, hk⟩
    · rw [hk]; exact wellGrown_cons around below
    · rw [hk]; exact wellGrown_cons around below
    · rw [hk]
      exact wellGrown_cons (Frame.wellGrown_place around (Frame.wellGrown_settle top t ht)) below
  · rw [hs]
    exact wellGrown_cons (Frame.wellGrown_readChar top c m.position) below

/-- Where the frame on the top has grown, so has the tree outside all groups. -/
theorem grows_root {f g : Frame} (h : ReflTransGen Grows f.root g.root) (fs : List Frame)
    (p q : Position) (b b' : Bool) :
    ReflTransGen Grows (⟨f, fs, p, b⟩ : Stack).root (⟨g, fs, q, b'⟩ : Stack).root := by
  cases fs with
  | nil => exact h
  | cons k fs =>
    simp only [root, List.getLastD_cons]
    exact .refl

theorem grows_step (m : Stack) (c : Char) (hf : m.finished = false) :
    ReflTransGen Grows m.root (m.step c).state.root := by
  rcases step_cases hf c with ⟨-, hs⟩ | ⟨-, f, fs, hb, hs⟩ | ⟨-, -, hs⟩
  · rw [hs]
    simp only [root, List.getLastD_cons]
    exact .refl
  · have around : m.root = (⟨f, fs, m.position, m.finished⟩ : Stack).root := by
      simp only [root, hb, List.getLastD_cons]
    rw [hs, around]
    rcases close_cases m f fs with ⟨e, -, hk⟩ | ⟨-, -, hk⟩ | ⟨-, t, -, hk⟩
    · rw [hk]; exact .refl
    · rw [hk]; exact .refl
    · rw [hk]
      exact grows_root (Frame.grows_place t f) fs _ _ _ _
  · rw [hs]
    exact grows_root (Frame.grows_readChar m.top c m.position) m.below _ _ _ _

theorem finish_state {m : Stack} (hf : m.finished = false) :
    m.finish.state = { m with finished := true } ∨
      m.finish.state = { m with top := m.top.settle.state, finished := true } := by
  rw [finish, hf, if_neg Bool.false_ne_true]
  split
  · exact .inl rfl
  · exact .inr rfl

theorem wellGrown_finish (m : Stack) (hf : m.finished = false) (h : m.WellGrown) :
    m.finish.state.WellGrown := by
  obtain ⟨top, below⟩ := List.forall_mem_cons.1 h
  rcases finish_state hf with hs | hs
  · rw [hs]; exact h
  · rw [hs]; exact wellGrown_cons (Frame.wellGrown_settle top) below

theorem grows_finish (m : Stack) (hf : m.finished = false) :
    ReflTransGen Grows m.root m.finish.state.root := by
  rcases finish_state hf with hs | hs
  · rw [hs]; exact .refl
  · rw [hs]; exact grows_root (Frame.grows_settle m.top) m.below _ _ _ _

/-! ## Sessions -/

theorem wellGrown_session (calls : List Call) {m : Stack} (h : m.WellGrown) :
    (Call.session perform calls m).2.WellGrown :=
  session_keeps wellGrown_step wellGrown_finish calls h

theorem grows_session (calls : List Call) (m : Stack) :
    ReflTransGen Grows m.root (Call.session perform calls m).2.root :=
  session_keeps (P := fun n => ReflTransGen Grows m.root n.root)
    (fun n c hf h => h.trans (grows_step n c hf)) (fun n hf h => h.trans (grows_finish n hf)) calls
    .refl

end Stack

theorem Call.session_append {σ : Type} (perform : Call → σ → Outcome σ) (calls later : List Call)
    (s : σ) : (session perform (calls ++ later) s).2 =
      (session perform later (session perform calls s).2).2 := by
  induction calls generalizing s with
  | nil => rfl
  | cons call calls ih => exact ih (perform call s).state

namespace Reader

theorem frame_mem_flatten {r q : Reader} (h : q ∈ r.chain) :
    q.level.frame ∈ r.flatten.top :: r.flatten.below := by
  rw [frames_flatten, List.mem_reverse]
  exact List.mem_map_of_mem h

/-- **The tree only grows**, in every session, whether or not calls fail. In each frame that is
open, left operands are complete and numbers are numbers, so a node that misses its right operand is
the top node or a right operand. Between any two states of a session the tree outside all groups has
grown step by step, and all that was placed in it has stayed. -/
theorem grows_of_session (calls later : List Call) :
    let earlier := (Call.session perform calls start).2
    let after := (Call.session perform (calls ++ later) start).2
    (∀ q ∈ earlier.chain, ∀ t, q.root = some t → t.WellGrown ∧
      ∀ place op l, t.at? place = some (.pending op l) → place.getLast? ≠ some .left) ∧
    ReflTransGen Grows earlier.root after.root ∧
    ∀ t, earlier.root = some t → ∃ u, after.root = some u ∧ t.Kept u := by
  intro earlier after
  obtain ⟨-, flat, root, -⟩ := session_flatten calls
  obtain ⟨-, -, root', -⟩ := session_flatten (calls ++ later)
  have start : Stack.start.WellGrown :=
    Stack.wellGrown_cons Frame.wellGrown_empty fun f h => absurd h List.not_mem_nil
  have grown := Stack.wellGrown_session calls start
  have growth := Stack.grows_session later (Call.session Stack.perform calls Stack.start).2
  rw [← Call.session_append, root, root'] at growth
  rw [flat] at grown
  refine ⟨?_, growth, ?_⟩
  · intro q hq t ht
    have wellGrown := grown _ (frame_mem_flatten hq) t ht
    exact ⟨wellGrown, fun place op l hp => wellGrown.not_left hp⟩
  · intro t ht
    rw [show earlier.root = some t from ht] at growth
    exact Grows.kept growth

end Reader

end Reckoner
