import Packrat.Shape

/-!
# Grammars as they are declared

* `Bound`             how often a repetition has to succeed;
* `Step`              one step of a clause: text to be matched, or other rules by name;
* `Clause`            steps in order, with the shape of their result;
* `Rule`              a name and its clauses, of which the first that matches counts;
* `Rule.Draft`        a rule that is being written: steps go to its last clause;
* `Grammar`           rules in the order of their declaration, and patterns of ignorable text;
* `Grammar.ignore`, `Grammar.declare`, `Grammar.unite`   how a grammar grows;
* `Grammar.definitions`   the rules that count: of several with one name the first.

Rules name each other freely, so a rule may refer to later ones and to itself.
-/

namespace Packrat

/-- how often a repetition has to succeed -/
inductive Bound where
  | zeroOrMore
  | oneOrMore
deriving DecidableEq

namespace Bound

def least : Bound → Nat
  | .zeroOrMore => 0
  | .oneOrMore => 1

def describe : Bound → String
  | .zeroOrMore => "ZeroOrMore"
  | .oneOrMore => "OneOrMore"

end Bound

/-- one step of a clause -/
inductive Step (τ : Type) where
  /-- text that matches a pattern -/
  | leaf (source : String) (role : Role τ)
  /-- a rule -/
  | call (name : String)
  /-- a rule, again and again -/
  | repetition (name : String) (bound : Bound) (shape : Shape τ)
  /-- a rule or nothing -/
  | maybe (name : String)
  /-- the first of several rules that matches -/
  | anyOf (names : List String)

structure Clause (τ : Type) where
  steps : List (Step τ) := []
  /-- the shape of the result, if one was chosen -/
  shape : Option (Shape τ) := none

namespace Clause
variable {τ : Type}

/-- the shape of the result: without a choice, a single step passes its result on, and any other
number of steps is grouped under an untyped branch -/
def result (c : Clause τ) : Shape τ :=
  match c.shape, c.steps with
  | some shape, _ => shape
  | none, [_] => .first
  | none, _ => .splice none

def push (c : Clause τ) (s : Step τ) : Clause τ := { c with steps := c.steps ++ [s] }

end Clause

/-- a name for an ordered choice of clauses -/
structure Rule (τ : Type) where
  name : String
  clauses : List (Clause τ)

/-- a rule that is being written: clauses that are complete, and the one that steps go to -/
structure Rule.Draft (τ : Type) where
  name : String
  complete : List (Clause τ) := []
  current : Clause τ := {}

namespace Rule.Draft
variable {τ : Type}

def step (d : Draft τ) (s : Step τ) : Draft τ := { d with current := d.current.push s }

def leaf (d : Draft τ) (source : String) (role : Role τ) : Draft τ := d.step (.leaf source role)

def hide (d : Draft τ) (source : String) : Draft τ := d.leaf source .hide

/-- text of which only a tag is kept -/
def keyword (d : Draft τ) (source : String) (tag : τ) : Draft τ := d.leaf source (.keyword tag)

/-- text that is kept under a tag -/
def capture (d : Draft τ) (source : String) (tag : τ) : Draft τ := d.leaf source (.capture tag)

def call (d : Draft τ) (name : String) : Draft τ := d.step (.call name)

def repetition (d : Draft τ) (name : String) (bound : Bound) (shape : Shape τ) : Draft τ :=
  d.step (.repetition name bound shape)

/-- a rule any number of times, its results grouped -/
def many (d : Draft τ) (name : String) : Draft τ := d.repetition name .zeroOrMore (.splice none)

/-- a rule once or more often, its results grouped -/
def manyOnce (d : Draft τ) (name : String) : Draft τ := d.repetition name .oneOrMore (.splice none)

def maybe (d : Draft τ) (name : String) : Draft τ := d.step (.maybe name)

/-- the first of several rules that matches -/
def anyOf (d : Draft τ) (names : List String) : Draft τ := d.step (.anyOf names)

/-- the shape of the current clause; a later choice replaces an earlier one -/
def shaped (d : Draft τ) (shape : Shape τ) : Draft τ :=
  { d with current := { d.current with shape := some shape } }

/-- the current clause yields a branch with that tag, looking through grouping nodes -/
def tag (d : Draft τ) (tag : τ) : Draft τ := d.shaped (.splice (some tag))

/-- the current clause yields a branch with that tag over its trees as they are -/
def tagAll (d : Draft τ) (tag : τ) : Draft τ := d.shaped (.all (some tag))

/-- the current clause is complete; another one follows -/
def or (d : Draft τ) : Draft τ :=
  { d with complete := d.complete ++ [d.current], current := {} }

def rule (d : Draft τ) : Rule τ := ⟨d.name, d.complete ++ [d.current]⟩

end Rule.Draft

/-- rules and patterns of ignorable text, as declared -/
structure Grammar (τ : Type) where
  ignorables : List String := []
  rules : List (Rule τ) := []

namespace Grammar
variable {τ : Type}

def empty : Grammar τ := {}

/-- text that matches `source` may stand before any other text; saying so twice changes nothing -/
def ignore (g : Grammar τ) (source : String) : Grammar τ :=
  if g.ignorables.contains source then g
  else { g with ignorables := g.ignorables ++ [source] }

def declare (g : Grammar τ) (d : Rule.Draft τ) : Grammar τ := { g with rules := g.rules ++ [d.rule] }

/-- all that `h` ignores and declares, after what `g` does -/
def unite (g h : Grammar τ) : Grammar τ :=
  let both := h.ignorables.foldl ignore g
  { both with rules := both.rules ++ h.rules }

end Grammar

/-- the rules of a grammar as they are taken up, one after the other -/
structure Roll (τ : Type) where
  /-- the number that each name has been given -/
  numbers : List (String × Nat) := []
  /-- the rules that count, in the order of their numbers -/
  definitions : List (Rule τ) := []
  /-- the names of the rules that do not count -/
  duplicates : List String := []

/-- of several rules with one name, the first gets the next number and counts -/
def Roll.add {τ : Type} (roll : Roll τ) (r : Rule τ) : Roll τ :=
  if (roll.numbers.lookup r.name).isSome then
    { roll with duplicates := roll.duplicates ++ [r.name] }
  else
    { roll with
      numbers := (r.name, roll.definitions.length) :: roll.numbers
      definitions := roll.definitions ++ [r] }

namespace Grammar
variable {τ : Type}

def roll (g : Grammar τ) : Roll τ := g.rules.foldl Roll.add {}

def definitions (g : Grammar τ) : List (Rule τ) := g.roll.definitions

def duplicates (g : Grammar τ) : List String := g.roll.duplicates

def index (g : Grammar τ) (name : String) : Option Nat := g.roll.numbers.lookup name

end Grammar

end Packrat
