import Packrat.Fragment
import Packrat.Match

/-!
# How results take shape

* `Shape`            how a parser makes one result of the trees of its parts;
* `Shape.apply`      the result for several trees;
* `Shape.applyOne`   the result for the one part that an ordered choice has taken;
* `Role`             what a parser makes of the text that its pattern has matched;
* `Role.apply`       that result.

With `_(a, b)` an untyped branch, the trees `_(a, b), y` become `_(a, b)` by `first`,
`T(a, b, y)` by `splice T` and `T(_(a, b), y)` by `all T`.
-/

namespace Packrat

/-- how the trees of the parts become one result -/
inductive Shape (τ : Type) where
  /-- the first tree, or nothing -/
  | first
  /-- a branch over the trees, where the children of untyped branches take their parent's place -/
  | splice (tag : Option τ)
  /-- a branch over the trees as they are -/
  | all (tag : Option τ)
  /-- any function of the trees -/
  | custom (f : List (Tree τ) → Fragment τ)

namespace Shape
variable {τ : Type}

def apply : Shape τ → List (Tree τ) → Fragment τ
  | .first, [] => .nothing
  | .first, t :: _ => .kept t
  | .splice tag, ts => .kept (.branch tag (ts.flatMap Tree.spliced))
  | .all tag, ts => .kept (.branch tag ts)
  | .custom f, ts => f ts

/-- the result for a single part; an elided one passes as it is -/
def applyOne : Shape τ → Fragment τ → Fragment τ
  | .first, r => r
  | shape, .kept t => shape.apply [t]
  | _, .elided t => .elided t

def describe [Tag τ] : Shape τ → String
  | .first => "First"
  | .splice tag => "Splice(" ++ Tag.optional tag ++ ")"
  | .all tag => "All(" ++ Tag.optional tag ++ ")"
  | .custom _ => "Custom(<function>)"

end Shape

/-- what becomes of matched text -/
inductive Role (τ : Type) where
  /-- the text is read and left out -/
  | hide
  /-- only a tag is kept -/
  | keyword (tag : τ)
  /-- the captured text is kept under a tag -/
  | capture (tag : τ)
  /-- any function of the match -/
  | custom (f : Match → Fragment τ)

namespace Role
variable {τ : Type}

def apply : Role τ → Match → Fragment τ
  | .hide, m => .elided (.leaf none m.text m.span)
  | .keyword tag, _ => .kept (.keyword tag)
  | .capture tag, m => .kept (.leaf (some tag) m.captured m.span)
  | .custom f, m => f m

def describe [Tag τ] : Role τ → String
  | .hide => "Hide"
  | .keyword tag => "Keyword(" ++ Tag.label tag ++ ")"
  | .capture tag => "Capture(" ++ Tag.label tag ++ ")"
  | .custom _ => "Custom(<function>)"

end Role

end Packrat
