/-!
# What a run counts

* `Counters`           how much work a run has done;
* `Counters.observe`   takes the present heights of the three stacks into account.
-/

namespace Packrat

/-- how much work a run has done -/
structure Counters where
  /-- parsers started -/
  steps : Nat := 0
  /-- suspended parsers taken up again -/
  resumes : Nat := 0
  /-- patterns tried -/
  leafAttempts : Nat := 0
  /-- patterns that matched -/
  leafMatches : Nat := 0
  /-- attempts answered from memory -/
  memoHits : Nat := 0
  /-- attempts that had to be made -/
  memoMisses : Nat := 0
  /-- attempts in memory -/
  memoEntries : Nat := 0
  /-- attempts given up because the same one was under way -/
  recursionCuts : Nat := 0
  /-- repetitions ended by a round that did not move on -/
  zeroWidthStops : Nat := 0
  /-- the largest heights of the stacks -/
  maxWork : Nat := 0
  maxFrames : Nat := 0
  maxResults : Nat := 0
deriving DecidableEq

namespace Counters

/-- takes the present heights of the stacks into account -/
def observe (c : Counters) (work frames results : Nat) : Counters :=
  { c with
    maxWork := max c.maxWork work
    maxFrames := max c.maxFrames frames
    maxResults := max c.maxResults results }

end Counters

end Packrat
