import Packrat.Graph.Analysis

/-!
# From a grammar to its graph

* `Grammar.nodes`        the parsers of all rules, and the root of each rule;
* `Grammar.wiringIssues`   what is wrong with the steps of the rules and the patterns of ignorable text;
* `Grammar.compile`      the graph of a grammar.

Compiling never fails: a step that names no rule, or whose pattern is none, becomes a parser that
never matches, and is reported among the issues.
-/

namespace Packrat

/-- the rule under which issues with patterns of ignorable text are reported -/
def ignorableRule : String := "(ignorable)"

def patternIssues (rule source : String) : List Issue :=
  match Pattern.anchored source with
  | .ok _ => []
  | .error e => [.invalidPattern rule source e]

def nameIssues (index : String → Option Nat) (rule name : String) : List Issue :=
  match index name with
  | some _ => []
  | none => [.undefinedRule rule name]

def Step.issues {τ : Type} (index : String → Option Nat) (rule : String) : Step τ → List Issue
  | .leaf source _ => patternIssues rule source
  | .call name => nameIssues index rule name
  | .repetition name _ _ => nameIssues index rule name
  | .maybe name => nameIssues index rule name
  | .anyOf names => names.flatMap (nameIssues index rule)

def Rule.issues {τ : Type} (index : String → Option Nat) (r : Rule τ) : List Issue :=
  r.clauses.flatMap fun c => c.steps.flatMap (Step.issues index r.name)

namespace Grammar
variable {τ : Type}

def nodes (g : Grammar τ) : List (Node τ) × List Nat :=
  layOut (Rule.nodes g.index) 0 g.definitions

/-- the patterns of ignorable text, those that are none left out -/
def ignorablePatterns (g : Grammar τ) : List Pattern :=
  g.ignorables.filterMap fun source => (Pattern.anchored source).toOption

/-- what is wrong with the definitions and the patterns of ignorable text -/
def wiringIssues (g : Grammar τ) : List Issue :=
  g.definitions.flatMap (Rule.issues g.index) ++ g.ignorables.flatMap (patternIssues ignorableRule)

def compile (g : Grammar τ) : Graph τ :=
  let laid := g.nodes
  let nodes := laid.1.toArray
  let roots := laid.2.toArray
  let names := g.definitions.map Rule.name
  let rules := (names.zip (laid.2.zip (analyze nodes roots).toList)).map
    fun (name, root, facts) => RuleEntry.mk name root facts
  let repetitions := (names.zip (nullableRepetitions nodes roots).toList).filterMap
    fun (name, found) => if found then some (Issue.nullableRepetition name) else none
  { nodes := nodes
    rules := rules.toArray
    numbers := g.roll.numbers
    ignorables := g.ignorablePatterns
    issues := g.duplicates.map Issue.duplicateRule ++ g.wiringIssues ++ repetitions }

end Grammar

end Packrat
