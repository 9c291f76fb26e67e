import Packrat.Tag
import Packrat.Text.Place

/-!
# Trees

* `Tree`             what a parse yields: leaves with captured text, and branches;
* `Tree.keyword`     a node that is only a tag;
* `Tree.empty`       a node that is nothing at all;
* `Tree.spliced`     what a tree contributes to a parent that looks through grouping nodes;
* `Tree.size`        the number of nodes, and `sizes` the number of nodes of several trees.

No node has both captured text and children.
-/

namespace Packrat

/-- a tree whose nodes carry tags from `τ`, or none -/
inductive Tree (τ : Type) where
  /-- captured text and where it was found -/
  | leaf (tag : Option τ) (text : String) (span : Span)
  /-- a node over its children, in order -/
  | branch (tag : Option τ) (children : List (Tree τ))

namespace Tree
variable {τ : Type}

/-- a node that is only a tag -/
def keyword (tag : τ) : Tree τ := .branch (some tag) []

def empty : Tree τ := .branch none []

def tag : Tree τ → Option τ
  | .leaf tag _ _ => tag
  | .branch tag _ => tag

def children : Tree τ → List (Tree τ)
  | .leaf _ _ _ => []
  | .branch _ children => children

/-- the captured text of a leaf -/
def text? : Tree τ → Option String
  | .leaf _ text _ => some text
  | .branch _ _ => none

/-- where the text of a leaf was found -/
def span? : Tree τ → Option Span
  | .leaf _ _ span => some span
  | .branch _ _ => none

def isUntyped (t : Tree τ) : Bool := t.tag.isNone

def isLeaf (t : Tree τ) : Bool := t.children.isEmpty

/-- what a tree contributes to a parent that looks through grouping nodes: an untyped branch its
children, any other tree itself -/
def spliced : Tree τ → List (Tree τ)
  | .branch none children => children
  | t => [t]

mutual

def size : Tree τ → Nat
  | .leaf _ _ _ => 1
  | .branch _ children => 1 + sizes children

def sizes : List (Tree τ) → Nat
  | [] => 0
  | t :: ts => t.size + sizes ts

end

@[simp] theorem sizes_nil : sizes ([] : List (Tree τ)) = 0 := by rw [sizes]

@[simp] theorem sizes_cons (t : Tree τ) (ts : List (Tree τ)) :
    sizes (t :: ts) = t.size + sizes ts := by rw [sizes]

@[simp] theorem sizes_append (ts us : List (Tree τ)) : sizes (ts ++ us) = sizes ts + sizes us := by
  induction ts with
  | nil => simp
  | cons t ts ih => rw [List.cons_append, sizes_cons, sizes_cons, ih]; omega

/-- a tree is its root and its children -/
theorem size_eq (t : Tree τ) : t.size = 1 + sizes t.children := by
  cases t with
  | leaf tag text span => simp [size, children]
  | branch tag cs => rw [size, children]

end Tree

end Packrat
