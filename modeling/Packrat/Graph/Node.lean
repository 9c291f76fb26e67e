import Packrat.Grammar.Basic
import Packrat.Pattern.Basic

/-!
# Parsers as nodes of a graph

* `Node`             a parser that names its parts by their numbers;
* `Node.operands`    the numbers of its parts; a reference has none;
* `Node.describe`    the node in writing;
* `layOut`           nodes for several things in a row, and the number of the last node of each;
* `Step.nodes`, `Clause.nodes`, `Rule.nodes`   the nodes that a declaration becomes.

Each thing becomes a block of nodes with consecutive numbers, and the last of them stands for the
thing as a whole: parts have smaller numbers than what they are part of.
-/

namespace Packrat

/-- a parser whose parts are given by their numbers -/
inductive Node (τ : Type) where
  /-- all parts in order -/
  | sequence (parts : List Nat) (shape : Shape τ)
  /-- the first part that matches -/
  | alternative (choices : List Nat) (shape : Shape τ)
  /-- a part, again and again -/
  | repetition (inner : Nat) (bound : Bound) (shape : Shape τ)
  /-- a part or nothing -/
  | optional (inner : Nat)
  /-- text that matches a pattern; without a pattern, nothing matches -/
  | leaf (source : String) (pattern : Option Pattern) (role : Role τ)
  /-- a rule by its number; without a number, nothing matches -/
  | reference (name : String) (rule : Option Nat)

namespace Node
variable {τ : Type}

/-- the numbers of the parts, references aside -/
def operands : Node τ → List Nat
  | .sequence parts _ => parts
  | .alternative choices _ => choices
  | .repetition inner _ _ => [inner]
  | .optional inner => [inner]
  | .leaf _ _ _ => []
  | .reference _ _ => []

def describe [Tag τ] : Node τ → String
  | .sequence parts shape => s!"seq[{parts.length}] " ++ shape.describe
  | .alternative choices shape => s!"alt[{choices.length}] " ++ shape.describe
  | .repetition _ bound shape => bound.describe ++ " " ++ shape.describe
  | .optional _ => "optional"
  | .leaf source none _ => s!"/{source}/ (invalid)"
  | .leaf source (some _) role => s!"/{source}/ -> " ++ role.describe
  | .reference name none => s!"@{name} (undefined)"
  | .reference name (some _) => s!"@{name}"

end Node

/-- nodes for several things in a row from the number `base` on, and for each thing the number of
its last node -/
def layOut {τ β : Type} (nodes : Nat → β → List (Node τ)) (base : Nat) :
    List β → List (Node τ) × List Nat
  | [] => ([], [])
  | b :: bs =>
    let here := nodes base b
    let more := layOut nodes (base + here.length) bs
    (here ++ more.1, (base + here.length - 1) :: more.2)

section
variable {τ : Type} (index : String → Option Nat)

def Step.nodes (base : Nat) : Step τ → List (Node τ)
  | .leaf source role => [.leaf source (Pattern.anchored source).toOption role]
  | .call name => [.reference name (index name)]
  | .repetition name bound shape =>
    [.reference name (index name), .repetition base bound shape]
  | .maybe name => [.reference name (index name), .optional base]
  | .anyOf names =>
    names.map (fun name => .reference name (index name)) ++
      [.alternative (List.range' base names.length) .first]

/-- the nodes of a clause: those of its steps, and a sequence -/
def Clause.nodes (base : Nat) (c : Clause τ) : List (Node τ) :=
  let steps := layOut (Step.nodes index) base c.steps
  steps.1 ++ [.sequence steps.2 c.result]

/-- the nodes of a rule: those of its clauses, and a choice unless there is just one -/
def Rule.nodes (base : Nat) (r : Rule τ) : List (Node τ) :=
  let clauses := layOut (Clause.nodes index) base r.clauses
  match clauses.2 with
  | [_] => clauses.1
  | choices => clauses.1 ++ [.alternative choices .first]

end

end Packrat
