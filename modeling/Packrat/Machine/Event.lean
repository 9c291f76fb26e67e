import Packrat.Log

/-!
# What happens during a run

* `Event`          something worth telling about a run, rules given by their numbers;
* `Event.record`   the event as a record of the log.
-/

namespace Packrat

/-- something worth telling about a run -/
inductive Event where
  /-- an attempt at a rule begins at that offset -/
  | entered (rule offset : Nat)
  /-- the attempt that began at that offset ends -/
  | exited (rule offset : Nat) (matched : Bool)
  /-- the same attempt is under way already -/
  | cut (rule offset : Nat)
  /-- a reference to a rule that is not declared -/
  | unresolved (name : String)
  /-- a round of a repetition that began at that offset did not move on -/
  | stalled (offset : Nat)
deriving DecidableEq

namespace Event

def record {τ : Type} (g : Graph τ) : Event → Record
  | .entered rule offset => ⟨.trace, "enter `" ++ g.ruleName rule ++ s!"` at {offset}"⟩
  | .exited rule offset matched =>
    ⟨.trace, "exit `" ++ g.ruleName rule ++ s!"` at {offset}: " ++
      if matched then "matched" else "no match"⟩
  | .cut rule offset =>
    ⟨.trace, "rule `" ++ g.ruleName rule ++ s!"` re-entered at {offset} (left recursion), failing"⟩
  | .unresolved name => ⟨.trace, s!"reference to undefined rule `{name}` fails"⟩
  | .stalled offset =>
    ⟨.warn, s!"repetition stopped at {offset}: iteration matched without consuming input"⟩

end Event

end Packrat
