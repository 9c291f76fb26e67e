import Packrat.Pattern.CharSet

/-!
# Regular expressions

* `Assertion`         a condition on the two sides of a place;
* `Expr`              a regular expression;
* `Expr.all`          expressions one after the other, and `Expr.oneOf` the first that fits;
* `Expr.moves`        whether each match takes a character;
* `Expr.times`        bounded and unbounded repetition, in terms of `opt`, `plus` and `star`;
* `Expr.groupCount`   the number of groups.

Alternatives are ordered, and so are the ways to repeat: a greedy repetition prefers one more round,
a lazy one prefers to stop.
-/

namespace Packrat

/-- a condition on the characters before and after a place -/
inductive Assertion where
  | textStart
  | textEnd
  | lineStart
  | lineEnd
  | wordBoundary
  | notWordBoundary
deriving DecidableEq

namespace Assertion

def isWord : Option Char → Bool
  | none => false
  | some c => isWordCharacter c

/-- whether the condition holds between `before` and `after`, each absent at an end of the text -/
def holds (before after : Option Char) : Assertion → Bool
  | .textStart => before.isNone
  | .textEnd => after.isNone
  | .lineStart => before.isNone || before == some '\n'
  | .lineEnd => after.isNone || after == some '\n'
  | .wordBoundary => isWord before != isWord after
  | .notWordBoundary => isWord before == isWord after

end Assertion

inductive Expr where
  /-- the empty text -/
  | empty
  /-- one character of a set, where the case of letters may not matter -/
  | set (s : CharSet) (anyCase : Bool)
  | assert (a : Assertion)
  /-- one after the other -/
  | seq (e f : Expr)
  /-- the first, or else the second -/
  | alt (e f : Expr)
  /-- a group with a number, whose text is kept -/
  | group (index : Nat) (e : Expr)
  /-- the expression or nothing -/
  | opt (greedy : Bool) (e : Expr)
  /-- the expression once or more often -/
  | plus (greedy : Bool) (e : Expr)
  /-- any number of rounds of an expression that takes a character in each -/
  | star (greedy : Bool) (e : Expr)
deriving DecidableEq

namespace Expr

def all : List Expr → Expr
  | [] => .empty
  | [e] => e
  | e :: es => .seq e (all es)

/-- the first of several expressions that fits -/
def oneOf : List Expr → Expr
  | [] => .empty
  | [e] => e
  | e :: es => .alt e (oneOf es)

/-- each match takes a character -/
def moves : Expr → Bool
  | .empty => false
  | .set _ _ => true
  | .assert _ => false
  | .seq e f => e.moves || f.moves
  | .alt e f => e.moves && f.moves
  | .group _ e => e.moves
  | .opt _ _ => false
  | .plus _ e => e.moves
  | .star _ _ => false

def exactly (e : Expr) (n : Nat) : Expr := all (List.replicate n e)

/-- up to `n` times the same, each round only after the one before -/
def upTo (greedy : Bool) (e : Expr) : Nat → Expr
  | 0 => .empty
  | 1 => .opt greedy e
  | n + 1 => .opt greedy (.seq e (upTo greedy e n))

/-- at least `n` times the same; whether there is a first round is a choice of its own where a round may
take nothing -/
def atLeast (greedy : Bool) (e : Expr) : Nat → Expr
  | 0 => if e.moves then .star greedy e else .opt greedy (.plus greedy e)
  | 1 => .plus greedy e
  | n + 1 => .seq (exactly e n) (.plus greedy e)

/-- from `least` to `most` times the same, without an upper bound if there is no `most`; nothing is
left of an expression that may not occur at all -/
def times (greedy : Bool) (e : Expr) (least : Nat) : Option Nat → Expr
  | none => atLeast greedy e least
  | some most =>
    if most = 0 then .empty
    else if least = most then exactly e least
    else if least = 0 then upTo greedy e most
    else .seq (exactly e least) (upTo greedy e (most - least))

/-- the highest number of a group -/
def groupCount : Expr → Nat
  | .empty => 0
  | .set _ _ => 0
  | .assert _ => 0
  | .seq e f => max e.groupCount f.groupCount
  | .alt e f => max e.groupCount f.groupCount
  | .group index e => max index e.groupCount
  | .opt _ e => e.groupCount
  | .plus _ e => e.groupCount
  | .star _ e => e.groupCount

end Expr

end Packrat
