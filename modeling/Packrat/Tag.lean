/-!
# Tags

* `Tag τ`    the values of `τ` can name the nodes of a tree: each has a label to be printed.

A grammar usually brings a closed enumeration of tags of its own; strings label themselves.
-/

namespace Packrat

class Tag (τ : Type) where
  /-- how the tag is written -/
  label : τ → String

/-- a string is its own label -/
instance : Tag String := ⟨id⟩

/-- a tag as an optional value: its label in parentheses after `Some`, or `None` -/
def Tag.optional {τ : Type} [Tag τ] : Option τ → String
  | none => "None"
  | some t => "Some(" ++ Tag.label t ++ ")"

/-- the label of a node: its tag's, or an underscore for a node without tag -/
def Tag.ofNode {τ : Type} [Tag τ] : Option τ → String
  | none => "_"
  | some t => Tag.label t

end Packrat
