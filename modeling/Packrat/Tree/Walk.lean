import Packrat.Tree.Basic

/-!
# Traversals that keep their own stack

A tree can be as deep as the parsed text is long, so each traversal keeps the trees still to be
visited in a list of its own.

* `Tree.foldWalk`   a left fold over the nodes of several trees, parents before children;
* `Tree.walk`       the nodes of a tree in that order;
* `Tree.count`      how many there are;
* `Tree.depth`      the number of nodes on the longest path down;
* `Tree.same`       equality of two trees, wherever their text was found.
-/

namespace Packrat

namespace Tree
variable {τ : Type}

/-- folds `f` over the nodes of the pending trees: each root, then its children, then the rest -/
def foldWalk {β : Type} (f : β → Tree τ → β) (acc : β) : List (Tree τ) → β
  | [] => acc
  | t :: pending => foldWalk f (f acc t) (t.children ++ pending)
termination_by pending => sizes pending
decreasing_by
  rw [sizes_append, sizes_cons, size_eq]
  omega

/-- the subtrees at all nodes, parents before children and children from left to right -/
def walk (t : Tree τ) : List (Tree τ) :=
  (foldWalk (fun seen u => u :: seen) [] [t]).reverse

/-- the number of nodes that the walk visits -/
def count (t : Tree τ) : Nat := foldWalk (fun n _ => n + 1) 0 [t]

/-- the number of nodes of pending trees that carry something else -/
def pendingSize {β : Type} (pending : List (Tree τ × β)) : Nat := sizes (pending.map Prod.fst)

theorem sizes_reverse (ts : List (Tree τ)) : sizes ts.reverse = sizes ts := by
  induction ts with
  | nil => rfl
  | cons t ts ih => rw [List.reverse_cons, sizes_append, ih, sizes_cons, sizes_cons, sizes_nil]; omega

/-- what goes on the stack takes the place of a tree that is larger -/
theorem pendingSize_lt {β : Type} {more : List (Tree τ × β)} {t : Tree τ} (x : β)
    (pending : List (Tree τ × β)) (h : pendingSize more ≤ sizes t.children) :
    pendingSize (more.reverse ++ pending) < pendingSize ((t, x) :: pending) := by
  rw [pendingSize] at h
  rw [pendingSize, pendingSize, List.map_append, List.map_reverse, sizes_append, sizes_reverse,
    List.map_cons, sizes_cons, size_eq]
  show _ < 1 + sizes t.children + _
  omega

/-- the largest depth among the nodes of the pending trees and `best`, where each pending tree is
given with the depth of its root; the children of a node are visited from the last to the first -/
def deepest (best : Nat) : List (Tree τ × Nat) → Nat
  | [] => best
  | (t, d) :: pending =>
    deepest (max best d) ((t.children.map fun c => (c, d + 1)).reverse ++ pending)
termination_by pending => pendingSize pending
decreasing_by
  apply pendingSize_lt
  rw [pendingSize, List.map_map]
  exact Nat.le_of_eq (congrArg sizes (List.map_id _))

/-- the number of nodes on the longest path from the root down; a lone node has depth one -/
def depth (t : Tree τ) : Nat := deepest 0 [(t, 1)]

/-- zipping keeps to the trees on the left -/
theorem pendingSize_zip (ts us : List (Tree τ)) : pendingSize (ts.zip us) ≤ sizes ts := by
  induction ts generalizing us with
  | nil => simp [pendingSize]
  | cons t ts ih =>
    cases us with
    | nil => simp [pendingSize]
    | cons u us =>
      have hrest := ih us
      rw [pendingSize] at hrest
      rw [List.zip_cons_cons, pendingSize, List.map_cons, sizes_cons, sizes_cons]
      exact Nat.add_le_add_left hrest _

/-- whether all pending pairs agree in tags, captured text and children; the children of a pair are
compared from the last to the first -/
def sameAll [BEq τ] : List (Tree τ × Tree τ) → Bool
  | [] => true
  | (t, u) :: pending =>
    t.tag == u.tag && t.text? == u.text? && t.children.length == u.children.length &&
      sameAll ((t.children.zip u.children).reverse ++ pending)
termination_by pending => pendingSize pending
decreasing_by exact pendingSize_lt u pending (pendingSize_zip t.children u.children)

/-- whether two trees agree in tags, captured text and children; spans are not compared -/
def same [BEq τ] (t u : Tree τ) : Bool := sameAll [(t, u)]

end Tree

end Packrat
