import Packrat.Tree.Basic

/-!
# Results of parsers

* `Fragment`            a tree, together with whether it shows up in the tree around it;
* `Fragment.nothing`    what an optional parser yields when it finds nothing;
* `Fragment.collected`  the trees that a fragment contributes to the children of its parent.
-/

namespace Packrat

/-- the result of a successful parser: a tree that is kept in its parent, or left out of it -/
inductive Fragment (τ : Type) where
  | kept (tree : Tree τ)
  | elided (tree : Tree τ)

namespace Fragment
variable {τ : Type}

def nothing : Fragment τ := .elided .empty

def tree : Fragment τ → Tree τ
  | .kept t => t
  | .elided t => t

def isElided : Fragment τ → Bool
  | .kept _ => false
  | .elided _ => true

/-- the trees contributed to a parent: a kept tree itself, and of an elided one the children, if it
is an untyped branch -/
def collected : Fragment τ → List (Tree τ)
  | .kept t => [t]
  | .elided (.branch none children) => children
  | .elided _ => []

end Fragment

end Packrat
