import Packrat.Grammar.Basic

/-!
# JSON documents

* `JsonTag`           the tags;
* `JsonTag.grammar`   the grammar, whose entry is `JsonTag.entry`.

The text of a string is kept as it is written, escapes included, and so is that of a number.  White
space between tokens is ignorable.
-/

namespace Packrat

inductive JsonTag where
  | object
  | property
  | array
  | string
  | number
  | trueWord
  | falseWord
  | nullWord
deriving DecidableEq

namespace JsonTag

instance : Tag JsonTag where
  label
    | .object => "Object"
    | .property => "Property"
    | .array => "Array"
    | .string => "String"
    | .number => "Number"
    | .trueWord => "True"
    | .falseWord => "False"
    | .nullWord => "Null"

def entry : String := "value"

def draft (name : String) : Rule.Draft JsonTag := { name := name }

/-- the pattern of a string; its group holds what stands between the quotation marks -/
def stringPattern : String := "\"((?:[^\"\\\\]|\\\\.)*)\""

def numberPattern : String := "-?(?:0|[1-9]\\d*)(?:\\.\\d+)?(?:[eE][+-]?\\d+)?"

/-- objects: properties between braces -/
def objectRules : List (Rule.Draft JsonTag) := [
  draft "object" |>.hide "\\\x7b" |>.maybe "members" |>.hide "\\\x7d" |>.tag .object,
  draft "members" |>.call "property" |>.many "more_members",
  draft "more_members" |>.hide "," |>.call "property",
  draft "property" |>.call "string" |>.hide ":" |>.call "value" |>.tag .property]

/-- arrays: values between brackets -/
def arrayRules : List (Rule.Draft JsonTag) := [
  draft "array" |>.hide "\\[" |>.maybe "elements" |>.hide "\\]" |>.tag .array,
  draft "elements" |>.call "value" |>.many "more_elements",
  draft "more_elements" |>.hide "," |>.call "value"]

/-- strings, numbers and the three words -/
def scalarRules : List (Rule.Draft JsonTag) := [
  draft "string" |>.capture stringPattern .string,
  draft "number" |>.capture numberPattern .number,
  draft "literal" |>.keyword "true\\b" .trueWord
    |>.or |>.keyword "false\\b" .falseWord
    |>.or |>.keyword "null\\b" .nullWord]

def grammar : Grammar JsonTag :=
  let value := draft "value" |>.anyOf ["object", "array", "string", "number", "literal"]
  (value :: objectRules ++ arrayRules ++ scalarRules).foldl Grammar.declare
    (Grammar.empty.ignore "\\s+")

end JsonTag

end Packrat
