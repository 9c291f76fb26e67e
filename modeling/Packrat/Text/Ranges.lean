/-!
# Sets of characters given by ranges of code points

* `CodeRanges`            a list of closed ranges of code points, in ascending order;
* `CodeRanges.contains`   whether a character lies in one of them.

The tables of character properties (`WhiteSpace`, `DecimalDigit`, `WordCharacter`, ...) are values
of this type.  They follow Unicode 16.0.
-/

namespace Packrat

abbrev CodeRanges := List (Nat × Nat)

namespace CodeRanges

/-- whether the code point of `c` lies in one of the ranges; since they ascend, the search ends at
the first range that starts above it -/
def contains : CodeRanges → Char → Bool
  | [], _ => false
  | (lo, hi) :: more, c => if c.toNat < lo then false else c.toNat ≤ hi || contains more c

end CodeRanges

end Packrat
