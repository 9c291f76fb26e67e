import Packrat.Graph.Basic
import Packrat.Machine.Counters
import Packrat.Machine.Event
import Packrat.Machine.Memo
import Packrat.Machine.Pile
import Packrat.Reader

/-!
# The state of a run

Parsing keeps its own stacks, so that the depth of a text is no limit.

* `Frame`           a parser that waits for the result of one of its parts;
* `Machine`         the state of a run: where it reads, three stacks, what it remembers and counts;
* `Machine.first`   the state before anything is parsed;
* `Machine.answer`, `Machine.schedule`, `Machine.suspend`   the moves of which steps are made.
-/

namespace Packrat

/-- a parser that waits for the result of one of its parts.  Trees collected so far are kept latest
first. -/
inductive Frame (τ : Type) where
  /-- the parts still to come, and where the sequence began -/
  | sequence (todo : List Nat) (shape : Shape τ) (start : Place) (collected : List (Tree τ))
  /-- the choices still to try, and where to try them -/
  | alternative (todo : List Nat) (shape : Shape τ) (start : Place)
  /-- the rounds so far, and where the first and the present one began -/
  | repetition (inner : Nat) (bound : Bound) (shape : Shape τ) (count : Nat) (start before : Place)
      (collected : List (Tree τ))
  | optional
  /-- an attempt at a rule, and where it began -/
  | rule (rule : Nat) (start : Place)

structure Machine (τ : Type) where
  reader : Reader
  /-- parsers to be started -/
  work : List Nat
  /-- parsers that wait, the innermost first -/
  frames : Pile (Frame τ)
  /-- results not yet taken up; a failure has none -/
  results : List (Option (Fragment τ))
  /-- the attempts made so far, if the run remembers them -/
  memo : Option (Memo τ)
  counters : Counters
  /-- what has happened, latest first -/
  events : List Event

namespace Machine
variable {τ : Type}

/-- the state before anything is parsed, with or without a memory -/
def first (text : List Char) (memoize : Bool) : Machine τ where
  reader := Reader.first text
  work := []
  frames := .empty
  results := []
  memo := if memoize then some ∅ else none
  counters := {}
  events := []

def answer (m : Machine τ) (result : Option (Fragment τ)) : Machine τ :=
  { m with results := result :: m.results }

def schedule (m : Machine τ) (node : Nat) : Machine τ := { m with work := node :: m.work }

/-- a parser waits, and one of its parts is to be started -/
def suspend (m : Machine τ) (frame : Frame τ) (node : Nat) : Machine τ :=
  { m with frames := m.frames.push frame, work := node :: m.work }

def moveTo (m : Machine τ) (p : Place) : Machine τ := { m with reader := m.reader.moveTo p }

def note (m : Machine τ) (e : Event) : Machine τ := { m with events := e :: m.events }

def tally (m : Machine τ) (f : Counters → Counters) : Machine τ :=
  { m with counters := f m.counters }

/-- remembers an attempt, if the run remembers any -/
def remember (key : Memo.Key) (entry : Memo.Entry τ) : Machine τ → Machine τ
  | ⟨reader, work, frames, results, memo, counters, events⟩ =>
    ⟨reader, work, frames, results, memo.map (·.insert key entry), counters, events⟩

/-- what the run has counted, with the present size of its memory -/
def totals (m : Machine τ) : Counters :=
  { m.counters with memoEntries := match m.memo with
    | none => 0
    | some memo => memo.size }

end Machine

end Packrat
