import Packrat.Grammar.Basic

/-!
# A small assembly language

* `AssemblyTag`           the tags;
* `AssemblyTag.binary`    a rule for two operands with an operator between them;
* `AssemblyTag.grammar`   the grammar, whose entry is `AssemblyTag.entry`.

One statement stands on a line, and a label after a colon may follow it.  Blanks, tabs and comments
from `#` to the end of the line are ignorable; line ends are not.

    a_1 := 6            # accumulator 1 gets 6
    r_0 := a_1 * r_0
    push a_1
    if a_1 > 1 goto fac : loop
    call fac
    goto end
-/

namespace Packrat

inductive AssemblyTag where
  | program
  | labeled
  | label
  | assign
  | callTo
  | goto
  | stop
  | branch
  | push
  | pop
  | giveBack
  | accumulator
  | register
  | address
  | number
  | add
  | sub
  | mul
  | div
  | mod
  | equal
  | notEqual
  | lessEqual
  | greaterEqual
  | less
  | greater
deriving DecidableEq

namespace AssemblyTag

instance : Tag AssemblyTag where
  label
    | .program => "Program"
    | .labeled => "Labeled"
    | .label => "Label"
    | .assign => "Assign"
    | .callTo => "Call"
    | .goto => "Goto"
    | .stop => "End"
    | .branch => "Branch"
    | .push => "Push"
    | .pop => "Pop"
    | .giveBack => "Return"
    | .accumulator => "Accumulator"
    | .register => "Register"
    | .address => "Address"
    | .number => "Number"
    | .add => "Add"
    | .sub => "Sub"
    | .mul => "Mul"
    | .div => "Div"
    | .mod => "Mod"
    | .equal => "Equal"
    | .notEqual => "NotEqual"
    | .lessEqual => "LessEqual"
    | .greaterEqual => "GreaterEqual"
    | .less => "Less"
    | .greater => "Greater"

def entry : String := "program"

def labelPattern : String := "[A-Za-z_][A-Za-z0-9_]*"

def draft (name : String) : Rule.Draft AssemblyTag := { name := name }

/-- two operands with an operator between them, which gives the tag -/
def operation (d : Rule.Draft AssemblyTag) (operator : String × AssemblyTag) :
    Rule.Draft AssemblyTag :=
  d.call "operand" |>.hide operator.1 |>.call "operand" |>.tag operator.2

/-- a choice between operations, in the order of their operators -/
def binary (name : String) : List (String × AssemblyTag) → Rule.Draft AssemblyTag
  | [] => draft name
  | first :: others => others.foldl (fun d o => operation d.or o) (operation (draft name) first)

/-- programs are lines, with empty lines anywhere -/
def lineRules : List (Rule.Draft AssemblyTag) := [
  draft "program" |>.maybe "newlines" |>.call "line" |>.many "next_line" |>.maybe "newlines"
    |>.tag .program,
  draft "next_line" |>.call "newlines" |>.call "line",
  draft "newlines" |>.manyOnce "newline",
  draft "newline" |>.hide "\\r?\\n",
  draft "line" |>.call "statement" |>.hide ":" |>.capture labelPattern .label |>.tag .labeled
    |>.or |>.call "statement",
  draft "statement"
    |>.anyOf ["assign", "call", "end", "goto", "branch", "push", "pop", "return"]]

def statementRules : List (Rule.Draft AssemblyTag) := [
  draft "assign" |>.call "target" |>.hide ":=" |>.call "expr" |>.tag .assign,
  draft "call" |>.hide "call\\b" |>.capture labelPattern .label |>.tag .callTo,
  draft "end" |>.hide "goto[ \\t]+end\\b" |>.tag .stop,
  draft "goto" |>.hide "goto\\b" |>.capture labelPattern .label |>.tag .goto,
  draft "branch" |>.hide "if\\b" |>.call "condition" |>.hide "goto\\b"
    |>.capture labelPattern .label |>.tag .branch,
  draft "push" |>.hide "push\\b" |>.call "expr" |>.tag .push,
  draft "pop" |>.hide "pop\\b" |>.call "target" |>.tag .pop,
  draft "return" |>.keyword "return\\b" .giveBack]

/-- expressions and conditions: an expression may be a single operand, a condition compares two -/
def operationRules : List (Rule.Draft AssemblyTag) := [
  binary "expr" [("\\+", .add), ("-", .sub), ("\\*", .mul), ("/", .div), ("%", .mod)]
    |>.or |>.call "operand",
  binary "condition"
    [("==", .equal), ("!=", .notEqual), ("<=", .lessEqual), (">=", .greaterEqual), ("<", .less),
      (">", .greater)]]

/-- operands, and those of them that can be assigned to -/
def operandRules : List (Rule.Draft AssemblyTag) := [
  draft "target" |>.anyOf ["accumulator", "register", "address"],
  draft "operand" |>.anyOf ["accumulator", "register", "address", "number"],
  draft "accumulator" |>.capture "a_(\\d+)" .accumulator,
  draft "register" |>.capture "r_(\\d+)" .register,
  draft "address" |>.capture "@(\\d+)" .address,
  draft "number" |>.capture "-?\\d+" .number]

def grammar : Grammar AssemblyTag :=
  (lineRules ++ statementRules ++ operationRules ++ operandRules).foldl Grammar.declare
    (Grammar.empty.ignore "[ \\t]+" |>.ignore "#[^\\n]*")

end AssemblyTag

end Packrat
