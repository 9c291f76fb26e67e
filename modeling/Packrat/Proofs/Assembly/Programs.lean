import Mathlib.Data.List.Basic
import Packrat.Language.Assembly
import Packrat.Text.DecimalDigit
import Packrat.Tree.Walk

/-!
# Assembly programs and their texts

The programs of the assembly language, their trees, and all the ways in which they are laid out.

* `Assembly.Digits`, `Assembly.Label`, `Assembly.Keyword`   the numbers and words in a program;
* `Assembly.Target`, `Assembly.Operand`, `Assembly.Expression`, `Assembly.Condition`   what statements
                        are about;
* `Assembly.Statement`, `Assembly.Line`   statements, and those with a label after them;
* `tokens`, `tree`      what each of them is written with, and its tree;
* `Assembly.Filler`     blanks, and maybe a comment after them;
* `Assembly.Row`        a row of a text: a line or nothing, and a filler after it.
-/

namespace Packrat

namespace Assembly

/-! ## words -/

/-- digits, at least one -/
structure Digits where
  text : List Char
  some : text ≠ []
  all : ∀ c ∈ text, isDecimalDigit c = true

def isLabelStart (c : Char) : Bool :=
  ('A' ≤ c && c ≤ 'Z') || ('a' ≤ c && c ≤ 'z') || c == '_'

def isLabelPart (c : Char) : Bool :=
  ('A' ≤ c && c ≤ 'Z') || ('a' ≤ c && c ≤ 'z') || ('0' ≤ c && c ≤ '9') || c == '_'

/-- a name for a line -/
structure Label where
  first : Char
  more : List Char
  start : isLabelStart first = true
  part : ∀ c ∈ more, isLabelPart c = true

def Label.text (l : Label) : List Char := l.first :: l.more

/-- where a leaf was found does not matter -/
def leaf (tag : AssemblyTag) (text : List Char) : Tree AssemblyTag :=
  .leaf (some tag) (String.ofList text) ⟨0, 0⟩

def Label.tree (l : Label) : Tree AssemblyTag := leaf .label l.text

/-- the words that begin a statement, or go on with it -/
inductive Keyword where
  | call
  | goto
  | condition
  | push
  | pop
  | giveBack

def Keyword.text : Keyword → List Char
  | call => ['c', 'a', 'l', 'l']
  | goto => ['g', 'o', 't', 'o']
  | condition => ['i', 'f']
  | push => ['p', 'u', 's', 'h']
  | pop => ['p', 'o', 'p']
  | giveBack => ['r', 'e', 't', 'u', 'r', 'n']

/-! ## operands -/

/-- what holds a value -/
inductive Store where
  | accumulator
  | register
  | address

namespace Store

/-- what is written before the number -/
def mark : Store → List Char
  | accumulator => ['a', '_']
  | register => ['r', '_']
  | address => ['@']

def tag : Store → AssemblyTag
  | accumulator => .accumulator
  | register => .register
  | address => .address

end Store

/-- what can be assigned to -/
structure Target where
  store : Store
  index : Digits

inductive Operand where
  | target (t : Target)
  | number (negative : Bool) (n : Digits)

namespace Target

def text (t : Target) : List Char := t.store.mark ++ t.index.text

def tree (t : Target) : Tree AssemblyTag := leaf t.store.tag t.index.text

end Target

namespace Operand

def text : Operand → List Char
  | target t => t.text
  | number true n => '-' :: n.text
  | number false n => n.text

def tree : Operand → Tree AssemblyTag
  | target t => t.tree
  | number negative n => leaf .number (number negative n).text

end Operand

/-! ## operations -/

inductive Operator where
  | add
  | sub
  | mul
  | div
  | mod
deriving DecidableEq

inductive Comparison where
  | equal
  | notEqual
  | lessEqual
  | greaterEqual
  | less
  | greater
deriving DecidableEq

namespace Operator

def text : Operator → List Char
  | add => ['+']
  | sub => ['-']
  | mul => ['*']
  | div => ['/']
  | mod => ['%']

def tag : Operator → AssemblyTag
  | add => .add
  | sub => .sub
  | mul => .mul
  | div => .div
  | mod => .mod

end Operator

namespace Comparison

def text : Comparison → List Char
  | equal => ['=', '=']
  | notEqual => ['!', '=']
  | lessEqual => ['<', '=']
  | greaterEqual => ['>', '=']
  | less => ['<']
  | greater => ['>']

def tag : Comparison → AssemblyTag
  | equal => .equal
  | notEqual => .notEqual
  | lessEqual => .lessEqual
  | greaterEqual => .greaterEqual
  | less => .less
  | greater => .greater

end Comparison

inductive Expression where
  | single (a : Operand)
  | binary (op : Operator) (a b : Operand)

structure Condition where
  op : Comparison
  left : Operand
  right : Operand

namespace Expression

def tokens : Expression → List (List Char)
  | single a => [a.text]
  | binary op a b => [a.text, op.text, b.text]

def tree : Expression → Tree AssemblyTag
  | single a => a.tree
  | binary op a b => .branch (some op.tag) [a.tree, b.tree]

end Expression

namespace Condition

def tokens (c : Condition) : List (List Char) := [c.left.text, c.op.text, c.right.text]

def tree (c : Condition) : Tree AssemblyTag :=
  .branch (some c.op.tag) [c.left.tree, c.right.tree]

end Condition

/-! ## lines -/

/-- a statement; going to the label `end` is the statement `stop` -/
inductive Statement where
  | assign (t : Target) (e : Expression)
  | call (l : Label)
  | stop
  | goto (l : Label) (other : l.text ≠ ['e', 'n', 'd'])
  | branch (c : Condition) (l : Label)
  | push (e : Expression)
  | pop (t : Target)
  | giveBack

namespace Statement

def tokens : Statement → List (List Char)
  | assign t e => t.text :: [':', '='] :: e.tokens
  | call l => [Keyword.call.text, l.text]
  | stop => [Keyword.goto.text, ['e', 'n', 'd']]
  | goto l _ => [Keyword.goto.text, l.text]
  | branch c l => Keyword.condition.text :: (c.tokens ++ [Keyword.goto.text, l.text])
  | push e => Keyword.push.text :: e.tokens
  | pop t => [Keyword.pop.text, t.text]
  | giveBack => [Keyword.giveBack.text]

def tree : Statement → Tree AssemblyTag
  | assign t e => .branch (some .assign) [t.tree, e.tree]
  | call l => .branch (some .callTo) [l.tree]
  | stop => .branch (some .stop) []
  | goto l _ => .branch (some .goto) [l.tree]
  | branch c l => .branch (some .branch) [c.tree, l.tree]
  | push e => .branch (some .push) [e.tree]
  | pop t => .branch (some .pop) [t.tree]
  | giveBack => .keyword .giveBack

end Statement

/-- a statement, and maybe a label -/
structure Line where
  statement : Statement
  label? : Option Label

namespace Line

def tokens (x : Line) : List (List Char) :=
  x.statement.tokens ++ x.label?.elim [] fun l => [[':'], l.text]

def tree (x : Line) : Tree AssemblyTag :=
  x.label?.elim x.statement.tree fun l => .branch (some .labeled) [x.statement.tree, l.tree]

/-- the tokens with a blank between any two -/
def text (x : Line) : List Char := [' '].intercalate x.tokens

end Line

/-! ## texts -/

/-- text between a line and the end of its row: blanks, and maybe a comment -/
structure Filler where
  blanks : List Char
  comment? : Option (List Char)
  blank : ∀ c ∈ blanks, c = ' ' ∨ c = '\t'
  inline : ∀ comment ∈ comment?, '\n' ∉ comment

def Filler.text (f : Filler) : List Char := f.blanks ++ f.comment?.elim [] ('#' :: ·)

/-- a row of a text: without a line it is blank or only a comment -/
structure Row where
  line? : Option Line
  filler : Filler

def Row.text (r : Row) : List Char := r.line?.elim [] Line.text ++ r.filler.text

/-- the text of the rows, one after the other -/
def textOf (rows : List Row) : List Char := ['\n'].intercalate (rows.map Row.text)

/-- the lines of the rows, in order -/
def linesOf (rows : List Row) : List Line := rows.filterMap Row.line?

/-- the tree of a program with those lines -/
def programTree (lines : List Line) : Tree AssemblyTag :=
  .branch (some .program) (lines.map Line.tree)

end Assembly

end Packrat
