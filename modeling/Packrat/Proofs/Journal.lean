import Packrat.Proofs.Stage

/-!
# A journal of what has been read

A journal is kept beside a machine.  It holds, for whatever has a result, the texts that were read to
get it, in the order in which they were read.  A parser that fails is left with nothing, so what
was read and given up again is not in it; an attempt that is remembered comes back with what was
read when it was made.

* `Reading`             a text that a leaf has read, with the role of the leaf;
* `Journal`             the readings behind the parsers that wait, those behind the latest result, and
                        those behind each attempt that has come to its end;
* `Journal.start`, `Journal.resume`, `Journal.request`   the journal after one move;
* `Machine.track?`      a run together with its journal;
* `Machine.journal?`    requests in a row, with one journal for them all;
* `Machine.map_fst_track?`   the journal does not change the run.
-/

namespace Packrat

/-- a text that a leaf has read -/
structure Reading (τ : Type) where
  role : Role τ
  found : Match

/-- what has been read, kept beside a machine -/
structure Journal (τ : Type) where
  /-- what the parts of each parser that waits have read so far, the innermost first -/
  behind : List (List (Reading τ)) := []
  /-- what was read for the latest result; nothing for a failure -/
  latest : List (Reading τ) := []
  /-- what was read in the latest attempt at a rule from an offset -/
  recorded : Memo.Key → List (Reading τ) := fun _ => []

/-- what is recorded when a frame is resumed for which these texts were read: an attempt has come to its
end -/
def Frame.records {τ : Type} (readings : List (Reading τ))
    (recorded : Memo.Key → List (Reading τ)) : Frame τ → Memo.Key → List (Reading τ)
  | .rule number start => fun key =>
    if key = ⟨start.offset, number⟩ then readings else recorded key
  | _ => recorded

section
variable {τ : Type} (readings : List (Reading τ)) (recorded : Memo.Key → List (Reading τ))

theorem Frame.records_rule_self (number : Nat) (start : Place) :
    (Frame.rule number start).records readings recorded ⟨start.offset, number⟩ = readings :=
  if_pos rfl

theorem Frame.records_rule_of_ne {number : Nat} {start : Place} {key : Memo.Key}
    (h : key ≠ ⟨start.offset, number⟩) :
    (Frame.rule number start).records readings recorded key = recorded key :=
  if_neg h

end

namespace Journal
variable {τ : Type} (g : Graph τ) (ignorables : List Pattern)

/-- the journal after a move of a parser for which these texts were read -/
def settle (j : Journal τ) (readings : List (Reading τ)) : Move τ → Journal τ
  | .wait _ _ => { j with behind := readings :: j.behind }
  | .answer none => { j with latest := [] }
  | .answer (some _) => { j with latest := readings }

/-- what was read for an attempt that is answered from memory -/
def recalled (j : Journal τ) (l : Ledger τ) (rule : Nat) : List (Reading τ) :=
  match l.known? (l.key rule) with
  | some (.done _ _) => j.recorded (l.key rule)
  | _ => []

/-- what is read for a parser when it is started -/
def read (j : Journal τ) (l : Ledger τ) (node : Nat) : List (Reading τ) :=
  match g.nodes[node]? with
  | some (.leaf _ (some pattern) role) =>
    ((l.reader.look? ignorables pattern).map fun x => ⟨role, x.1⟩).toList
  | some (.reference _ (some rule)) => j.recalled l rule
  | _ => []

/-- the journal after a parser was started -/
def start (j : Journal τ) (l : Ledger τ) (node : Nat) : Journal τ :=
  j.settle (j.read g ignorables l node) (l.start g ignorables node).1

/-- the journal after a frame was resumed: what its part has read comes after the rest -/
def resume (j : Journal τ) (l : Ledger τ) (frame : Frame τ) (result : Option (Fragment τ)) :
    Journal τ :=
  let readings := j.behind.headD [] ++ j.latest
  (⟨j.behind.tail, j.latest, frame.records readings j.recorded⟩ : Journal τ).settle readings
    (l.resume frame result).1

/-- the journal after a request was taken up -/
def request (j : Journal τ) (l : Ledger τ) : Call → Journal τ
  | .parser _ => j
  | .rule rule => j.settle (j.recalled l rule) (l.enter g rule).1

/-- the journal after the next step of a machine -/
def next (j : Journal τ) (m : Machine τ) : Journal τ :=
  match m.work with
  | node :: _ => j.start g ignorables m.ledger node
  | [] =>
    match m.frames.pop? with
    | none => j
    | some (frame, _) => j.resume m.ledger frame m.takeResult.1

end Journal

namespace Machine
variable {τ : Type} (g : Graph τ) (ignorables : List Pattern)

/-- a run until no parser is left, and the journal of it -/
def track? : Nat → Machine τ → Journal τ → Option (Machine τ × Journal τ)
  | 0, _, _ => none
  | limit + 1, m, j =>
    match m.observe.advance g ignorables with
    | .finished m' => some (m', j)
    | .running m' => track? limit m' (j.next g ignorables m)

/-- requests in a row, with a journal of all that is read for them; the latest readings are then those
behind the last reply -/
def journal? (limit : Nat) (m : Machine τ) (j : Journal τ) :
    List Call → Option (Machine τ × Journal τ)
  | [] => some (m, j)
  | call :: calls =>
    match (m.request g call).track? g ignorables limit (j.request g m.ledger call) with
    | none => none
    | some (m', j') => journal? limit m'.takeResult.2 j' calls

variable {g ignorables}

/-- **The journal does not change the run.** -/
theorem map_fst_track? (limit : Nat) (m : Machine τ) (j : Journal τ) :
    (m.track? g ignorables limit j).map Prod.fst = m.run? g ignorables limit := by
  induction limit generalizing m j with
  | zero => rfl
  | succ limit ih =>
    rw [track?, run?]
    cases m.observe.advance g ignorables with
    | finished m' => rfl
    | running m' => exact ih m' _

theorem journal?_append (limit : Nat) (m : Machine τ) (j : Journal τ) (calls more : List Call) :
    m.journal? g ignorables limit j (calls ++ more) =
      (m.journal? g ignorables limit j calls).bind fun x =>
        x.1.journal? g ignorables limit x.2 more := by
  induction calls generalizing m j with
  | nil => rfl
  | cons call calls ih =>
    rw [List.cons_append, journal?, journal?]
    cases (m.request g call).track? g ignorables limit (j.request g m.ledger call) with
    | none => rfl
    | some x => exact ih _ _

end Machine

/-! ## the journal of a stage -/

section
variable {τ : Type} {g : Graph τ} {ignorables : List Pattern}

/-- the journal after the next step of a stage -/
def Stage.next (g : Graph τ) (ignorables : List Pattern) (s : Stage τ) (j : Journal τ) :
    Journal τ :=
  match s.task, s.frames with
  | .start node, _ => j.start g ignorables s.ledger node
  | .deliver result, frame :: _ => j.resume s.ledger frame result
  | .deliver _, [] => j

namespace Machine
variable {m m' : Machine τ} {s : Stage τ} {j : Journal τ}

/-- a machine and its stage keep the same journal -/
theorem At.next_eq (h : m.At s) : j.next g ignorables m = s.next g ignorables j := by
  obtain ⟨frames, task, l⟩ := s
  obtain ⟨hframes, hfaces, rfl⟩ := h
  change m.frames.items = frames at hframes
  cases task with
  | start node =>
    rw [Journal.next, hfaces.1]
    rfl
  | deliver result =>
    rw [Journal.next, hfaces.1]
    cases frames with
    | nil =>
      rw [frames_eq_empty hframes]
      rfl
    | cons frame frames =>
      obtain ⟨rest, hpush, -⟩ := frames_eq_push hframes
      have htake : m.takeResult.1 = result := by rw [takeResult, hfaces.2]
      rw [hpush, htake]
      show (match (rest.push frame).pop? with
        | none => j
        | some (frame, _) => j.resume m.ledger frame result) = j.resume m.ledger frame result
      rw [Pile.pop?_push]

/-- **What every step keeps, a run keeps**: what holds of a stage and a journal when a request is taken
up holds of the two when it has its result. -/
theorem At.track {P : Stage τ → Journal τ → Prop}
    (hstep : ∀ {s s' j}, Stage.Step g ignorables s s' → P s j → P s' (s.next g ignorables j))
    {limit : Nat} (hm : m.At s) (hs : P s j) (hrun : m.run? g ignorables limit = some m') :
    ∃ l j', m.track? g ignorables limit j = some (m', j') ∧
      P ⟨[], .deliver m'.takeResult.1, l⟩ j' ∧ m'.takeResult.2.Idle ∧
      m'.takeResult.2.ledger = l := by
  -- the machine, the stage it is at and the journal go on together, one step at a time
  induction limit generalizing m s j with
  | zero => cases hrun
  | succ limit ih =>
    rw [run?] at hrun
    rw [track?]
    cases hadvance : m.observe.advance g ignorables with
    | finished last =>
      rw [hadvance] at hrun
      cases hrun
      obtain ⟨frames, task, l⟩ := s
      obtain ⟨rfl, result, rfl, rfl, hidle, hledger⟩ := hm.finished hadvance
      exact ⟨l, j, rfl, hs, hidle, hledger⟩
    | running m₁ =>
      rw [hadvance] at hrun
      obtain ⟨s₁, hs₁, hm₁⟩ := hm.goes hadvance
      rw [hm.next_eq]
      exact ih hm₁ (hstep hs₁ hs) hrun

end Machine

end

end Packrat
