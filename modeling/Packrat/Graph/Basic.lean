import Packrat.Grammar.Issue
import Packrat.Graph.Node

/-!
# Graphs of parsers

* `Facts`            what is known about a rule beforehand;
* `RuleEntry`        a rule of a graph: its name, its root and its facts;
* `Graph`            parsers, rules, patterns of ignorable text, and issues;
* `Graph.ruleIndex?` the number of a rule;
* `Graph.fatal?`     the first issue that keeps some parser from ever matching.

A graph is what a grammar becomes before anything is parsed with it; it does not change any more.
-/

namespace Packrat

structure Facts where
  /-- the rule can match without moving on -/
  nullable : Bool
  /-- the rule can reach itself -/
  recursive : Bool
  /-- the rule itself names a rule that is not declared -/
  unresolved : Bool
deriving DecidableEq

structure RuleEntry where
  name : String
  /-- the number of the parser of the rule -/
  root : Nat
  facts : Facts
deriving DecidableEq

structure Graph (τ : Type) where
  nodes : Array (Node τ)
  rules : Array RuleEntry
  /-- the number of each rule by its name -/
  numbers : List (String × Nat)
  ignorables : List Pattern
  issues : List Issue

namespace Graph
variable {τ : Type}

def ruleIndex? (g : Graph τ) (name : String) : Option Nat :=
  g.numbers.lookup name

def root? (g : Graph τ) (rule : Nat) : Option Nat := g.rules[rule]?.map RuleEntry.root

def ruleName (g : Graph τ) (rule : Nat) : String := (g.rules[rule]?.map RuleEntry.name).getD ""

/-- the first issue that keeps some parser from ever matching -/
def fatal? (g : Graph τ) : Option Issue := g.issues.find? Issue.isFatal

end Graph

end Packrat
