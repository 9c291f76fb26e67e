import Packrat.Machine.Step

/-!
# Steps without stacks

A step of a run looks at the top of a stack and puts something on top of another.  Here it is
separated from the stacks:

* `Tally`            what a run counts, the heights of its stacks and the steps aside;
* `Ledger`           what a run has read, remembered, counted and noted;
* `Move`             what a parser comes to when it is started or resumed: it has a result, or it
                     waits for one of its parts;
* `Ledger.start`, `Ledger.resume`, `Ledger.enter`   the move, and the ledger after it;
* `Machine.start_eq`, `Machine.resume_eq`, `Machine.enter_eq`   a machine makes these moves;
* `Settles`          a move comes to a result, after so many waits.
-/

namespace Packrat

/-! ## ledgers -/

/-- what a run counts of its parsing -/
structure Tally where
  leafAttempts : Nat := 0
  leafMatches : Nat := 0
  memoHits : Nat := 0
  memoMisses : Nat := 0
  recursionCuts : Nat := 0
  zeroWidthStops : Nat := 0

/-- the part of the counters that a tally holds -/
def Counters.tally (c : Counters) : Tally :=
  ⟨c.leafAttempts, c.leafMatches, c.memoHits, c.memoMisses, c.recursionCuts, c.zeroWidthStops⟩

/-- the counters with that part replaced -/
def Counters.withTally (c : Counters) (t : Tally) : Counters :=
  { c with
    leafAttempts := t.leafAttempts
    leafMatches := t.leafMatches
    memoHits := t.memoHits
    memoMisses := t.memoMisses
    recursionCuts := t.recursionCuts
    zeroWidthStops := t.zeroWidthStops }

/-- the state of a run, its stacks aside -/
structure Ledger (τ : Type) where
  reader : Reader
  memo : Option (Memo τ)
  tally : Tally
  events : List Event

/-- what a parser comes to when it is started or resumed -/
inductive Move (τ : Type) where
  | answer (result : Option (Fragment τ))
  /-- the part with that number is to be started, and the frame resumed with its result -/
  | wait (frame : Frame τ) (node : Nat)

namespace Ledger
variable {τ : Type} (g : Graph τ) (ignorables : List Pattern)

/-- goes to a place -/
def moveTo (l : Ledger τ) (p : Place) : Ledger τ := { l with reader := l.reader.moveTo p }

/-- something happens -/
def note (l : Ledger τ) (e : Event) : Ledger τ := { l with events := e :: l.events }

/-- something is counted -/
def count (l : Ledger τ) (f : Tally → Tally) : Ledger τ := { l with tally := f l.tally }

/-- remembers an attempt, if the run remembers any -/
def remember (l : Ledger τ) (key : Memo.Key) (entry : Memo.Entry τ) : Ledger τ :=
  { l with memo := l.memo.map (·.insert key entry) }

/-- the attempt that would be made here at a rule -/
def key (l : Ledger τ) (rule : Nat) : Memo.Key := ⟨l.reader.offset, rule⟩

/-- what is remembered of an attempt -/
def known? (l : Ledger τ) (key : Memo.Key) : Option (Memo.Entry τ) :=
  match l.memo with
  | none => none
  | some memo => memo[key]?

/-- a result from memory -/
def reuse (l : Ledger τ) (stop : Place) : Ledger τ :=
  (l.count fun t => { t with memoHits := t.memoHits + 1 }).moveTo stop

/-- an attempt that is under way already fails -/
def cutOff (l : Ledger τ) (rule : Nat) : Ledger τ :=
  (l.count fun t => { t with recursionCuts := t.recursionCuts + 1 }).note
    (.cut rule l.reader.offset)

/-- an attempt that is to be remembered begins -/
def embark (l : Ledger τ) (rule : Nat) : Ledger τ :=
  (l.count fun t => { t with memoMisses := t.memoMisses + 1 }).remember (l.key rule) .inProgress

/-- an attempt begins -/
def opened (l : Ledger τ) (rule : Nat) : Ledger τ := l.note (.entered rule l.reader.offset)

/-- an attempt that began at `start` ends -/
def closed (l : Ledger τ) (rule : Nat) (start : Place) (result : Option (Fragment τ)) : Ledger τ :=
  (l.remember ⟨start.offset, rule⟩ (.done result l.reader.place)).note
    (.exited rule start.offset result.isSome)

/-- a round of a repetition that began at `before` has not moved on -/
def stalled (l : Ledger τ) (before : Place) : Ledger τ :=
  (l.count fun t => { t with zeroWidthStops := t.zeroWidthStops + 1 }).note
    (.stalled before.offset)

/-- begins an attempt at a rule with that root -/
def openRule (rule root : Nat) (l : Ledger τ) : Move τ × Ledger τ :=
  (.wait (.rule rule l.reader.place) root, l.opened rule)

/-- an attempt at a rule with that root -/
def attempt (rule root : Nat) (l : Ledger τ) : Move τ × Ledger τ :=
  match l.memo with
  | none => l.openRule rule root
  | some memo =>
    match memo[l.key rule]? with
    | some (.done result stop) => (.answer result, l.reuse stop)
    | some .inProgress => (.answer none, l.cutOff rule)
    | none => (l.embark rule).openRule rule root

/-- an attempt at a rule -/
def enter (rule : Nat) (l : Ledger τ) : Move τ × Ledger τ :=
  match g.root? rule with
  | none => (.answer none, l)
  | some root => l.attempt rule root

/-- a leaf has been tried -/
def tried (l : Ledger τ) : Ledger τ :=
  l.count fun t => { t with leafAttempts := t.leafAttempts + 1 }

/-- a leaf has been tried and read -/
def matched (l : Ledger τ) (reader : Reader) : Ledger τ :=
  { l.tried with reader := reader }.count fun t => { t with leafMatches := t.leafMatches + 1 }

/-- reads the text of a leaf -/
def readLeaf (pattern : Pattern) (role : Role τ) (l : Ledger τ) : Move τ × Ledger τ :=
  match l.reader.look? ignorables pattern with
  | none => (.answer none, l.tried)
  | some (found, reader) => (.answer (some (role.apply found)), l.matched reader)

/-- starts a parser -/
def start (node : Nat) (l : Ledger τ) : Move τ × Ledger τ :=
  match g.nodes[node]? with
  | none => (.answer none, l)
  | some (.leaf _ none _) => (.answer none, l)
  | some (.leaf _ (some pattern) role) => l.readLeaf ignorables pattern role
  | some (.sequence [] shape) => (.answer (some (shape.apply [])), l)
  | some (.sequence (part :: parts) shape) =>
    (.wait (.sequence parts shape l.reader.place []) part, l)
  | some (.alternative [] _) => (.answer none, l)
  | some (.alternative (choice :: choices) shape) =>
    (.wait (.alternative choices shape l.reader.place) choice, l)
  | some (.repetition inner bound shape) =>
    (.wait (.repetition inner bound shape 0 l.reader.place l.reader.place []) inner, l)
  | some (.optional inner) => (.wait .optional inner, l)
  | some (.reference _ (some rule)) => l.enter g rule
  | some (.reference name none) => (.answer none, l.note (.unresolved name))

/-- ends a repetition after `count` rounds -/
def endRepetition (bound : Bound) (shape : Shape τ) (count : Nat) (start : Place)
    (collected : List (Tree τ)) (l : Ledger τ) : Move τ × Ledger τ :=
  if count < bound.least then (.answer none, l.moveTo start)
  else (.answer (some (shape.apply collected.reverse)), l)

/-- a parser that waited goes on -/
def resume (l : Ledger τ) : Frame τ → Option (Fragment τ) → Move τ × Ledger τ
  | .sequence _ _ start _, none => (.answer none, l.moveTo start)
  | .sequence [] shape _ collected, some r =>
    (.answer (some (shape.apply (r.collected.reverse ++ collected).reverse)), l)
  | .sequence (part :: parts) shape start collected, some r =>
    (.wait (.sequence parts shape start (r.collected.reverse ++ collected)) part, l)
  | .alternative _ shape _, some r => (.answer (some (shape.applyOne r)), l)
  | .alternative [] _ start, none => (.answer none, l.moveTo start)
  | .alternative (choice :: choices) shape start, none =>
    (.wait (.alternative choices shape start) choice, l.moveTo start)
  | .repetition _ bound shape count start _ collected, none =>
    l.endRepetition bound shape count start collected
  | .repetition inner bound shape count start before collected, some r =>
    if before.offset < l.reader.offset then
      (.wait (.repetition inner bound shape (count + 1) start l.reader.place
        (r.collected.reverse ++ collected)) inner, l)
    else
      (l.stalled before).endRepetition bound shape (count + 1) start
        (r.collected.reverse ++ collected)
  | .optional, none => (.answer (some .nothing), l)
  | .optional, some r => (.answer (some r), l)
  | .rule rule start, result => (.answer result, l.closed rule start result)

end Ledger

/-! ## the moves of a machine -/

namespace Machine
variable {τ : Type} (g : Graph τ) (ignorables : List Pattern)

/-- the state of the run, its stacks aside -/
def ledger (m : Machine τ) : Ledger τ := ⟨m.reader, m.memo, m.counters.tally, m.events⟩

/-- the same stacks over another ledger -/
def withLedger (m : Machine τ) (l : Ledger τ) : Machine τ :=
  { m with
    reader := l.reader
    memo := l.memo
    counters := m.counters.withTally l.tally
    events := l.events }

/-- carries out a move -/
def make (m : Machine τ) : Move τ × Ledger τ → Machine τ
  | (.answer result, l) => (m.withLedger l).answer result
  | (.wait frame node, l) => (m.withLedger l).suspend frame node

theorem attempt_eq (rule root : Nat) (m : Machine τ) :
    m.attempt rule root = m.make (m.ledger.attempt rule root) := by
  cases m with
  | mk reader work frames results memo counters events =>
    cases memo with
    | none => rfl
    | some memo =>
      rw [attempt, Ledger.attempt]
      show (match memo[(⟨reader.offset, rule⟩ : Memo.Key)]? with
        | some (.done _ _) => _
        | some .inProgress => _
        | none => _) = make _ (match memo[(⟨reader.offset, rule⟩ : Memo.Key)]? with
        | some (.done _ _) => _
        | some .inProgress => _
        | none => _)
      cases memo[(⟨reader.offset, rule⟩ : Memo.Key)]? with
      | none => rfl
      | some entry => cases entry <;> rfl

theorem enter_eq (rule : Nat) (m : Machine τ) :
    m.enter g rule = m.make (m.ledger.enter g rule) := by
  rw [enter, Ledger.enter]
  cases g.root? rule with
  | none => rfl
  | some root => exact attempt_eq rule root m

theorem readLeaf_eq (pattern : Pattern) (role : Role τ) (m : Machine τ) :
    m.readLeaf ignorables pattern role = m.make (m.ledger.readLeaf ignorables pattern role) := by
  rw [readLeaf, Ledger.readLeaf]
  show (match m.reader.look? ignorables pattern with
    | none => _
    | some (_, _) => _) = make m (match m.reader.look? ignorables pattern with
    | none => _
    | some (_, _) => _)
  cases m.reader.look? ignorables pattern with
  | none => rfl
  | some found => rfl

/-- **A machine starts a parser by the move that its ledger decides.** -/
theorem start_eq (node : Nat) (m : Machine τ) :
    m.start g ignorables node = m.make (m.ledger.start g ignorables node) := by
  rw [start, Ledger.start]
  cases g.nodes[node]? with
  | none => rfl
  | some found =>
    cases found with
    | sequence parts shape => cases parts <;> rfl
    | alternative choices shape => cases choices <;> rfl
    | repetition inner bound shape => rfl
    | optional inner => rfl
    | leaf source pattern role =>
      cases pattern with
      | none => rfl
      | some pattern => exact readLeaf_eq ignorables pattern role m
    | reference name rule =>
      cases rule with
      | none => rfl
      | some rule => exact enter_eq g rule m

theorem endRepetition_eq (bound : Bound) (shape : Shape τ) (count : Nat) (start : Place)
    (collected : List (Tree τ)) (m : Machine τ) :
    m.endRepetition bound shape count start collected =
      m.make (m.ledger.endRepetition bound shape count start collected) := by
  rw [endRepetition, Ledger.endRepetition]
  split <;> rfl

/-- **A machine resumes a parser by the move that its ledger decides.** -/
theorem resume_eq (m : Machine τ) (frame : Frame τ) (result : Option (Fragment τ)) :
    m.resume frame result = m.make (m.ledger.resume frame result) := by
  cases frame with
  | sequence todo shape start collected => cases todo <;> cases result <;> rfl
  | alternative todo shape start => cases todo <;> cases result <;> rfl
  | repetition inner bound shape count start before collected =>
    cases result with
    | none => exact endRepetition_eq bound shape count start collected m
    | some r =>
      rw [resume, Ledger.resume]
      show (if before.offset < m.reader.offset then _ else _) =
        make m (if before.offset < m.reader.offset then _ else _)
      split
      · rfl
      · exact endRepetition_eq bound shape (count + 1) start _ _
  | optional => cases result <;> rfl
  | rule rule start => cases m; rfl

end Machine

/-! ## what a move comes to -/

section
variable {τ : Type} (g : Graph τ) (ignorables : List Pattern)

/-- the move comes to that result and leaves that ledger, after so many waits: a parser that waits
is resumed with what its part comes to -/
inductive Settles : Nat → Move τ × Ledger τ → Option (Fragment τ) → Ledger τ → Prop
  | answer (result : Option (Fragment τ)) (l : Ledger τ) : Settles 0 (.answer result, l) result l
  | wait {i j : Nat} {frame : Frame τ} {node : Nat} {l l₁ l₂ : Ledger τ}
      {part result : Option (Fragment τ)} :
      Settles i (l.start g ignorables node) part l₁ → Settles j (l₁.resume frame part) result l₂ →
      Settles (i + j + 1) (.wait frame node, l) result l₂

end

namespace Settles
variable {τ : Type} {g : Graph τ} {ignorables : List Pattern}

theorem answer_inv {k : Nat} {r r' : Option (Fragment τ)} {l l' : Ledger τ}
    (h : Settles g ignorables k (.answer r, l) r' l') : k = 0 ∧ r' = r ∧ l' = l := by
  cases h
  exact ⟨rfl, rfl, rfl⟩

theorem wait_inv {k : Nat} {frame : Frame τ} {node : Nat} {r : Option (Fragment τ)}
    {l l' : Ledger τ} (h : Settles g ignorables k (.wait frame node, l) r l') :
    ∃ i j part l₁, Settles g ignorables i (l.start g ignorables node) part l₁ ∧
      Settles g ignorables j (l₁.resume frame part) r l' ∧ k = i + j + 1 := by
  cases h with
  | wait h₁ h₂ => exact ⟨_, _, _, _, h₁, h₂, rfl⟩

/-- a move comes to one result at most -/
theorem unique {k k' : Nat} {x : Move τ × Ledger τ} {r r' : Option (Fragment τ)} {l l' : Ledger τ}
    (h : Settles g ignorables k x r l) (h' : Settles g ignorables k' x r' l') :
    k = k' ∧ r = r' ∧ l = l' := by
  induction h generalizing k' r' l' with
  | answer r l =>
    obtain ⟨hk, hr, hl⟩ := h'.answer_inv
    exact ⟨hk.symm, hr.symm, hl.symm⟩
  | wait _ _ ih₁ ih₂ =>
    obtain ⟨i, j, part, l₁, h₁, h₂, rfl⟩ := h'.wait_inv
    obtain ⟨rfl, rfl, rfl⟩ := ih₁ h₁
    obtain ⟨rfl, rfl, rfl⟩ := ih₂ h₂
    exact ⟨rfl, rfl, rfl⟩

/-- what every move keeps, a whole course of moves keeps -/
theorem preserves {P : Ledger τ → Ledger τ → Prop} (hrefl : ∀ l, P l l)
    (htrans : ∀ l l₁ l₂, P l l₁ → P l₁ l₂ → P l l₂)
    (hstart : ∀ l node, P l (l.start g ignorables node).2)
    (hresume : ∀ l frame r, P l (l.resume frame r).2)
    {k : Nat} {x : Move τ × Ledger τ} {r : Option (Fragment τ)} {l : Ledger τ}
    (h : Settles g ignorables k x r l) : P x.2 l := by
  induction h with
  | answer r l => exact hrefl l
  | wait _ _ ih₁ ih₂ =>
    exact htrans _ _ _ (htrans _ _ _ (hstart _ _) ih₁) (htrans _ _ _ (hresume _ _ _) ih₂)

end Settles

end Packrat
