import Packrat.Machine.Step
import Packrat.Text.Position

/-!
# Parsing a text

* `Options`             how a text is parsed;
* `ParseError`          why there is no tree;
* `Outcome`             all that comes of parsing a text with a rule;
* `Graph.run?`          parses a text with a rule given by its number;
* `Graph.parse?`        the tree for a rule given by its name;
* `Graph.inspect?`      the same, with an account of the work done.

Each takes a limit on the number of steps, and has no answer beyond it.  A memory bounds the work,
so only a run without one needs the limit.
-/

namespace Packrat

structure Options where
  /-- patterns of ignorable text, in place of the grammar's -/
  ignorables : Option (List Pattern) := none
  /-- attempts are remembered -/
  memoize : Bool := true
  /-- the text may go on after what the rule matches -/
  allowTrailing : Bool := false

namespace Options

/-- other patterns of ignorable text, if they all are patterns -/
def withIgnorables (sources : List String) : Except PatternError Options :=
  (sources.mapM Pattern.anchored).map fun patterns => { ignorables := some patterns }

/-- white space is ignored, and nothing else -/
def skipWhiteSpace : Options :=
  { ignorables := (["\\s+"].mapM Pattern.anchored).toOption }

end Options

inductive ParseError where
  /-- there is no rule with that name -/
  | unknownRule (rule : String)
  /-- the rule does not match; the furthest position any match has reached, and what follows -/
  | noMatch (rule : String) (furthest : Position) (preview : String)
  /-- the rule matches, and the text goes on at that position -/
  | trailingInput (position : Position) (preview : String)
  /-- the grammar has an issue that keeps some parser from ever matching -/
  | invalidGrammar (issue : Issue)
deriving DecidableEq

namespace ParseError

def position? : ParseError → Option Position
  | .unknownRule _ => none
  | .noMatch _ furthest _ => some furthest
  | .trailingInput position _ => some position
  | .invalidGrammar _ => none

/-- the error in words, with `detail` for what is wrong with a pattern -/
def message (detail : PatternError → String) : ParseError → String
  | .unknownRule rule => s!"unknown rule `{rule}`"
  | .noMatch rule furthest preview =>
    s!"rule `{rule}` did not match; furthest progress at " ++ furthest.render ++
      s!" near \"{preview}\""
  | .trailingInput position preview =>
    "unconsumed input at " ++ position.render ++ s!": \"{preview}\""
  | .invalidGrammar issue => "invalid grammar: " ++ issue.message detail

end ParseError

/-- all that comes of parsing a text with a rule -/
structure Outcome (τ : Type) where
  result : Except ParseError (Tree τ)
  /-- the offset after the match; zero without one -/
  consumed : Nat
  /-- the text goes on after the match, ignorable text aside -/
  trailing : Bool
  counters : Counters
  /-- what has happened, in order -/
  events : List Event

namespace Outcome
variable {τ : Type}

def isComplete (o : Outcome τ) : Bool := o.result.isOk && !o.trailing

end Outcome

/-- the position of an offset between two characters -/
def positionOf (text : List Char) (offset : Nat) : Position :=
  (Position.at? text offset).getD ⟨offset, 1, 1⟩

namespace Graph
variable {τ : Type} (g : Graph τ)

/-- the patterns of ignorable text under these options -/
def ignorablesFor (options : Options) : List Pattern := options.ignorables.getD g.ignorables

/-- the result of a run, given that of its rule, the state after it, and whether the text goes on -/
def resultOf (rule : Nat) (text : List Char) (options : Options) (ignorables : List Pattern)
    (reader : Reader) (trailing : Bool) : Option (Fragment τ) → Except ParseError (Tree τ)
  | none =>
    .error (.noMatch (g.ruleName rule) (positionOf text reader.furthest)
      (previewAt text reader.furthest))
  | some r =>
    if trailing && !options.allowTrailing then
      let offset := reader.significantOffset ignorables
      .error (.trailingInput (positionOf text offset) (previewAt text offset))
    else .ok r.tree

/-- parses a text with the rule of that number -/
def run? (limit : Nat) (rule : Nat) (text : String) (options : Options) : Option (Outcome τ) :=
  let chars := text.toList
  let ignorables := g.ignorablesFor options
  match (Machine.first chars options.memoize).evaluateRule? g ignorables limit rule with
  | none => none
  | some (result, m) =>
    let trailing := result.isSome && !m.reader.atEnd ignorables
    some
      { result := g.resultOf rule chars options ignorables m.reader trailing result
        consumed := m.reader.offset
        trailing := trailing
        counters := m.totals
        events := m.events.reverse }

def records (rule : Nat) (text : String) (o : Outcome τ) : List Record :=
  o.events.map (Event.record g) ++
    [⟨.debug, "rule `" ++ g.ruleName rule ++ "`: " ++ (if o.result.isOk then "ok" else "failed") ++
      s!" after {o.counters.steps} steps, consumed {o.consumed}/{text.utf8ByteSize} bytes"⟩]

def parse? (limit : Nat) (rule : String) (text : String) (options : Options) :
    Option (Except ParseError (Tree τ)) :=
  match g.ruleIndex? rule with
  | none => some (.error (.unknownRule rule))
  | some i => (g.run? limit i text options).map Outcome.result

end Graph

structure Inspection (τ : Type) where
  rule : String
  /-- the length of the text in bytes -/
  length : Nat
  /-- the issues of the grammar -/
  issues : List Issue
  outcome : Outcome τ

def Outcome.unknown {τ : Type} (rule : String) : Outcome τ :=
  ⟨.error (.unknownRule rule), 0, false, {}, []⟩

/-- parses a text with the rule of that name, and accounts for it -/
def Graph.inspect? {τ : Type} (g : Graph τ) (limit : Nat) (rule : String) (text : String)
    (options : Options) : Option (Inspection τ) :=
  let outcome? := match g.ruleIndex? rule with
    | none => some (Outcome.unknown rule)
    | some i => g.run? limit i text options
  outcome?.map fun outcome => ⟨rule, text.utf8ByteSize, g.issues, outcome⟩

end Packrat
