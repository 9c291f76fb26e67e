import Packrat.Text.Ranges

/-!
# White space

* `whiteSpace`        the code points with the property `White_Space`;
* `isWhiteSpace`      membership in that table.
-/

namespace Packrat

def whiteSpace : CodeRanges := [
  (0x9, 0xd), (0x20, 0x20), (0x85, 0x85), (0xa0, 0xa0), (0x1680, 0x1680), (0x2000, 0x200a),
  (0x2028, 0x2029), (0x202f, 0x202f), (0x205f, 0x205f), (0x3000, 0x3000)]

/-- the character separates words: a blank, a line end or one of their relatives in other scripts -/
def isWhiteSpace (c : Char) : Bool := whiteSpace.contains c

end Packrat
