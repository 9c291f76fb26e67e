import Packrat.Text.Place

/-!
# Matches of a pattern

* `Match`           the text that a pattern has matched, where, and what its groups hold;
* `Match.captured`  the text that a capturing parser keeps of it.
-/

namespace Packrat

/-- a stretch of text that a pattern has matched -/
structure Match where
  /-- all of the matched text -/
  text : String
  /-- where it stands -/
  span : Span
  /-- the texts of the groups from the first on; a group that took no part has none -/
  groups : List (Option String)
deriving DecidableEq

/-- the text of the first group that took part, or else all of the text -/
def Match.captured (m : Match) : String := (m.groups.findSome? id).getD m.text

end Packrat
