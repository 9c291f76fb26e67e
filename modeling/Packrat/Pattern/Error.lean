/-!
# What can be wrong with a pattern

* `PatternError`           why a text is no pattern;
* `PatternError.message`   the reason in words.
-/

namespace Packrat

inductive PatternError where
  | unclosedGroup
  | unopenedGroup
  | unclosedClass
  | unsupportedClass
  | invalidRange (lo hi : Char)
  | classAsRangeEnd
  | nothingToRepeat
  | unclosedCount
  | missingCount
  | emptyCountRange (least most : Nat)
  | loneBackslash
  | unknownEscape (c : Char)
  | backReference
  | invalidCodePoint
  | lookAround
  | unknownGroup
  | invalidGroupName
  | repeatedGroupName (name : String)
  | unknownFlag (c : Char)
  | repeatedFlag (c : Char)
  | danglingNegation
  | unclosedFlags
deriving DecidableEq

namespace PatternError

def message : PatternError → String
  | .unclosedGroup => "unclosed group"
  | .unopenedGroup => "unopened group"
  | .unclosedClass => "unclosed character class"
  | .unsupportedClass => "unsupported character class"
  | .invalidRange lo hi => s!"invalid character range {lo}-{hi}"
  | .classAsRangeEnd => "a range cannot end in a class"
  | .nothingToRepeat => "repetition operator missing expression"
  | .unclosedCount => "unclosed counted repetition"
  | .missingCount => "repetition quantifier expects a decimal number"
  | .emptyCountRange least most => s!"invalid repetition count range {least} to {most}"
  | .loneBackslash => "incomplete escape sequence"
  | .unknownEscape c => s!"unrecognized escape sequence of {c}"
  | .backReference => "backreferences are not supported"
  | .invalidCodePoint => "invalid code point in an escape sequence"
  | .lookAround => "look-around is not supported"
  | .unknownGroup => "unrecognized group"
  | .invalidGroupName => "invalid group name"
  | .repeatedGroupName name => s!"duplicate group name {name}"
  | .unknownFlag c => s!"unrecognized flag {c}"
  | .repeatedFlag c => s!"duplicate flag {c}"
  | .danglingNegation => "dangling flag negation"
  | .unclosedFlags => "expected a flag but got the end of the pattern"

end PatternError

end Packrat
