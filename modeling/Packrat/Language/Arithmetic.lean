import Packrat.Grammar.Basic

/-!
# Arithmetic expressions

* `Arithmetic`           the tags;
* `Arithmetic.level`     the two rules of one level of precedence;
* `Arithmetic.grammar`   the grammar, whose entry is `Arithmetic.entry`.

From the loosest to the tightest, the operators are `+`, `-`, `*` and `/`, and each level is a list:
`1 - 2 - 3` is one node with three children.

    sum      ::= diff sum_tail+    => Add  | diff
    sum_tail ::= "+" diff
    diff     ::= prod diff_tail+   => Sub  | prod
    prod     ::= quot prod_tail+   => Mul  | quot
    quot     ::= atom quot_tail+   => Div  | atom
    atom     ::= number | "(" sum ")" | "-" atom => Neg
-/

namespace Packrat

inductive Arithmetic where
  | number
  | neg
  | add
  | sub
  | mul
  | div
deriving DecidableEq

namespace Arithmetic

instance : Tag Arithmetic where
  label
    | .number => "Number"
    | .neg => "Neg"
    | .add => "Add"
    | .sub => "Sub"
    | .mul => "Mul"
    | .div => "Div"

def entry : String := "sum"

def draft (name : String) : Rule.Draft Arithmetic := { name := name }

/-- the name of the rule for an operator and the operand after it -/
def tailName (name : String) : String := name ++ "_tail"

/-- one level of precedence: operands of the level `next`, separated by an operator -/
def level (name operator next : String) (tag : Arithmetic) : List (Rule.Draft Arithmetic) := [
  draft name |>.call next |>.manyOnce (tailName name) |>.tag tag |>.or |>.call next,
  draft (tailName name) |>.hide operator |>.call next]

/-- a number, a sum in parentheses, or a negated atom -/
def atom : Rule.Draft Arithmetic :=
  draft "atom" |>.capture "\\d+(?:\\.\\d+)?" .number
    |>.or |>.hide "\\(" |>.call "sum" |>.hide "\\)" |>.shaped .first
    |>.or |>.hide "-" |>.call "atom" |>.tag .neg

def grammar : Grammar Arithmetic :=
  (level "sum" "\\+" "diff" .add ++ level "diff" "-" "prod" .sub ++
    level "prod" "\\*" "quot" .mul ++ level "quot" "/" "atom" .div ++ [atom]).foldl
      Grammar.declare (Grammar.empty.ignore "\\s+")

end Arithmetic

end Packrat
