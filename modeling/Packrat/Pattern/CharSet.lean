import Packrat.Text.DecimalDigit
import Packrat.Text.WhiteSpace
import Packrat.Text.WordCharacter

/-!
# Sets of characters in a pattern

* `CharSet`        what stands for one character of a pattern: a range, a class, or a combination;
* `CharSet.mem`    whether a character is in the set, where the case of letters may not matter.

Where the case does not matter, only ASCII letters are taken for one another: the folding of other
letters, such as `É` and `é`, is not covered.
-/

namespace Packrat

inductive CharSet where
  /-- no character -/
  | none
  /-- the characters from `lo` to `hi` -/
  | range (lo hi : Char)
  /-- decimal digits -/
  | digit
  /-- white space -/
  | space
  /-- word characters -/
  | word
  /-- all other characters -/
  | compl (s : CharSet)
  | union (s t : CharSet)
deriving DecidableEq

namespace CharSet

def one (c : Char) : CharSet := .range c c

def any : CharSet := .compl .none

/-- the ASCII letter `c` in the other case; any other character stays -/
def otherCase (c : Char) : Char := if c.isLower then c.toUpper else c.toLower

/-- whether `c` is in the set; with `anyCase`, a range also has the letters that it has in the other
case -/
def mem (anyCase : Bool) : CharSet → Char → Bool
  | .none, _ => false
  | .range lo hi, c =>
    (lo ≤ c && c ≤ hi) || (anyCase && lo ≤ otherCase c && otherCase c ≤ hi)
  | .digit, c => isDecimalDigit c
  | .space, c => isWhiteSpace c
  | .word, c => isWordCharacter c
  | .compl s, c => !mem anyCase s c
  | .union s t, c => mem anyCase s c || mem anyCase t c

end CharSet

end Packrat
