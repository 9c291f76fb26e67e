import Packrat.Machine.Basic

/-!
# Steps of a run

* `Machine.attempt`   an attempt at a rule, through the memory;
* `Machine.start`     a parser is started: it has a result at once, or waits for its first part;
* `Machine.resume`    a parser that waited goes on with the result of its part;
* `Machine.advance`   one step, as long as there is something to do;
* `Machine.run?`      all steps;
* `Machine.evaluate?`, `Machine.evaluateRule?`   the result of a parser and of a rule.

A parser that fails leaves the reader where it found it.  With a memory, an attempt that is already
under way at the same offset fails at once; without one, such a run has no end, and `run?` has no
answer however many steps it may take.
-/

namespace Packrat

namespace Machine
variable {τ : Type} (g : Graph τ) (ignorables : List Pattern)

/-- begins an attempt at a rule with that root -/
def openRule (rule root : Nat) (m : Machine τ) : Machine τ :=
  (m.note (.entered rule m.reader.offset)).suspend (.rule rule m.reader.place) root

/-- an attempt at a rule with that root: what is remembered of it counts, and what is under way
fails -/
def attempt (rule root : Nat) (m : Machine τ) : Machine τ :=
  match m.memo with
  | none => m.openRule rule root
  | some memo =>
    let key : Memo.Key := ⟨m.reader.offset, rule⟩
    match memo[key]? with
    | some (.done result stop) =>
      ((m.tally fun c => { c with memoHits := c.memoHits + 1 }).moveTo stop).answer result
    | some .inProgress =>
      ((m.tally fun c => { c with recursionCuts := c.recursionCuts + 1 }).note
        (.cut rule m.reader.offset)).answer none
    | none =>
      ((m.tally fun c => { c with memoMisses := c.memoMisses + 1 }).remember key
        .inProgress).openRule rule root

/-- an attempt at a rule; there is none at a rule that does not exist -/
def enter (rule : Nat) (m : Machine τ) : Machine τ :=
  match g.root? rule with
  | none => m.answer none
  | some root => m.attempt rule root

def readLeaf (pattern : Pattern) (role : Role τ) (m : Machine τ) : Machine τ :=
  let m := m.tally fun c => { c with leafAttempts := c.leafAttempts + 1 }
  match m.reader.look? ignorables pattern with
  | none => m.answer none
  | some (found, reader) =>
    ({ m with reader := reader }.tally fun c =>
      { c with leafMatches := c.leafMatches + 1 }).answer (some (role.apply found))

def start (node : Nat) (m : Machine τ) : Machine τ :=
  match g.nodes[node]? with
  | none => m.answer none
  | some (.leaf _ none _) => m.answer none
  | some (.leaf _ (some pattern) role) => m.readLeaf ignorables pattern role
  | some (.sequence [] shape) => m.answer (some (shape.apply []))
  | some (.sequence (part :: parts) shape) =>
    m.suspend (.sequence parts shape m.reader.place []) part
  | some (.alternative [] _) => m.answer none
  | some (.alternative (choice :: choices) shape) =>
    m.suspend (.alternative choices shape m.reader.place) choice
  | some (.repetition inner bound shape) =>
    m.suspend (.repetition inner bound shape 0 m.reader.place m.reader.place []) inner
  | some (.optional inner) => m.suspend .optional inner
  | some (.reference _ (some rule)) => m.enter g rule
  | some (.reference name none) => (m.note (.unresolved name)).answer none

def endRepetition (bound : Bound) (shape : Shape τ) (count : Nat) (start : Place)
    (collected : List (Tree τ)) (m : Machine τ) : Machine τ :=
  if count < bound.least then (m.moveTo start).answer none
  else m.answer (some (shape.apply collected.reverse))

def resume (m : Machine τ) : Frame τ → Option (Fragment τ) → Machine τ
  | .sequence _ _ start _, none => (m.moveTo start).answer none
  | .sequence [] shape _ collected, some r =>
    m.answer (some (shape.apply (r.collected.reverse ++ collected).reverse))
  | .sequence (part :: parts) shape start collected, some r =>
    m.suspend (.sequence parts shape start (r.collected.reverse ++ collected)) part
  | .alternative _ shape _, some r => m.answer (some (shape.applyOne r))
  | .alternative [] _ start, none => (m.moveTo start).answer none
  | .alternative (choice :: choices) shape start, none =>
    (m.moveTo start).suspend (.alternative choices shape start) choice
  | .repetition _ bound shape count start _ collected, none =>
    m.endRepetition bound shape count start collected
  | .repetition inner bound shape count start before collected, some r =>
    let collected := r.collected.reverse ++ collected
    if before.offset < m.reader.offset then
      m.suspend (.repetition inner bound shape (count + 1) start m.reader.place collected) inner
    else
      ((m.tally fun c => { c with zeroWidthStops := c.zeroWidthStops + 1 }).note
        (.stalled before.offset)).endRepetition bound shape (count + 1) start collected
  | .optional, none => m.answer (some .nothing)
  | .optional, some r => m.answer (some r)
  | .rule rule start, result =>
    ((m.remember ⟨start.offset, rule⟩ (.done result m.reader.place)).note
      (.exited rule start.offset result.isSome)).answer result

/-- takes the present heights of the stacks into account -/
def observe (m : Machine τ) : Machine τ :=
  { m with counters := m.counters.observe m.work.length m.frames.height m.results.length }

/-- takes the latest result; a run that has none counts as failed -/
def takeResult (m : Machine τ) : Option (Fragment τ) × Machine τ :=
  match m.results with
  | [] => (none, m)
  | result :: results => (result, { m with results := results })

/-- what one step leads to -/
inductive Progress (τ : Type) where
  /-- no parser was left -/
  | finished (m : Machine τ)
  | running (m : Machine τ)

/-- one step: a parser is started, or else the innermost of those that wait goes on -/
def advance (m : Machine τ) : Progress τ :=
  match m.work with
  | node :: work =>
    .running (({ m with work := work }.tally fun c => { c with steps := c.steps + 1 }).start g
      ignorables node)
  | [] =>
    match m.frames.pop? with
    | none => .finished m
    | some (frame, frames) =>
      let (result, m) := takeResult
        ({ m with frames := frames }.tally fun c => { c with resumes := c.resumes + 1 })
      .running (m.resume frame result)

/-- the state in which no parser is left, if it is reached in fewer than `limit` steps -/
def run? : Nat → Machine τ → Option (Machine τ)
  | 0, _ => none
  | limit + 1, m =>
    match m.observe.advance g ignorables with
    | .finished m => some m
    | .running m => run? limit m

/-- runs until no parser is left, and takes the result -/
def finish? (limit : Nat) (m : Machine τ) : Option (Option (Fragment τ) × Machine τ) :=
  (m.run? g ignorables limit).map takeResult

def evaluate? (limit node : Nat) (m : Machine τ) : Option (Option (Fragment τ) × Machine τ) :=
  (m.schedule node).finish? g ignorables limit

def evaluateRule? (limit rule : Nat) (m : Machine τ) : Option (Option (Fragment τ) × Machine τ) :=
  (m.enter g rule).finish? g ignorables limit

end Machine

end Packrat
