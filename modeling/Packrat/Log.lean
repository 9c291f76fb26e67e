import Packrat.Graph.Compile

/-!
# Records of a log

* `Level`              how much a record matters;
* `Record`             a level and a message;
* `Grammar.records`    what is worth telling about the declaration and compilation of a grammar.
-/

namespace Packrat

/-- how much a record matters -/
inductive Level where
  | trace
  | debug
  | warn
deriving DecidableEq

def Level.render : Level → String
  | .trace => "TRACE"
  | .debug => "DEBUG"
  | .warn => "WARN"

structure Record where
  level : Level
  message : String
deriving DecidableEq

def Record.render (r : Record) : String := r.level.render ++ " " ++ r.message

namespace Grammar
variable {τ : Type}

def declaredRecord (r : Rule τ) : Record :=
  ⟨.trace, s!"declared rule `{r.name}` with {r.clauses.length} clause(s)"⟩

def duplicateRecord (name : String) : Record :=
  ⟨.warn, s!"rule `{name}` defined more than once; keeping the first definition"⟩

/-- the declaration of all rules and the compilation, with `detail` for what is wrong with a
pattern -/
def records (g : Grammar τ) (detail : PatternError → String) : List Record :=
  let built := g.compile
  g.rules.map declaredRecord ++ g.duplicates.map duplicateRecord ++
    built.issues.map (fun issue => ⟨.debug, "grammar issue: " ++ issue.message detail⟩) ++
    [⟨.debug, s!"built grammar: {built.rules.size} rules, {built.nodes.size} parsers, " ++
      s!"{built.ignorables.length} ignorables, {built.issues.length} issues"⟩]

end Grammar

end Packrat
