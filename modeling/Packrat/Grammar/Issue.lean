import Packrat.Pattern.Error

/-!
# What can be wrong with a grammar

* `Issue`           something about a grammar that is wrong or looks wrong;
* `Issue.isFatal`   whether some parser can never match because of it;
* `Issue.message`   the issue in words.
-/

namespace Packrat

inductive Issue where
  /-- a step names a rule that is not declared -/
  | undefinedRule (rule target : String)
  /-- a text is no pattern -/
  | invalidPattern (rule source : String) (error : PatternError)
  /-- a rule is declared again -/
  | duplicateRule (rule : String)
  /-- what is repeated can match without moving on -/
  | nullableRepetition (rule : String)
deriving DecidableEq

namespace Issue

/-- some parser can never match -/
def isFatal : Issue → Bool
  | .undefinedRule _ _ => true
  | .invalidPattern _ _ _ => true
  | .duplicateRule _ => false
  | .nullableRepetition _ => false

def rule : Issue → String
  | .undefinedRule rule _ => rule
  | .invalidPattern rule _ _ => rule
  | .duplicateRule rule => rule
  | .nullableRepetition rule => rule

/-- the issue in words, with `detail` for what is wrong with a pattern -/
def message (detail : PatternError → String) : Issue → String
  | .undefinedRule rule target => s!"rule `{rule}` references undefined rule `{target}`"
  | .invalidPattern rule source error =>
    s!"rule `{rule}` has an invalid pattern /{source}/: " ++ detail error
  | .duplicateRule rule => s!"rule `{rule}` is defined more than once; the first definition wins"
  | .nullableRepetition rule =>
    s!"rule `{rule}` repeats a parser that can match without consuming input"

end Issue

end Packrat
