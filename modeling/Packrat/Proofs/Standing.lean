import Packrat.Proofs.Memory
import Packrat.Proofs.Stage

/-!
# Where parsers leave the reader

* `Lands`               a parser with that result, started at one place, may leave the reader at the
                        other: a failure where it was, a match there or further on;
* `Frame.Spans`         a frame waits for a part started at `inner`, and was itself started at `outer`;
* `Ledger.Lawful p`     the reader and what is remembered keep to this, at or after `p`;
* `Ledger.Lawful.start`, `Ledger.Lawful.resume`   so does every move;
* `Stage.Inside`        the frames above some others lead from the place where their outermost parser
                        was started to the place where the present one was;
* `Machine.Returns`     the parser that a machine starts next comes to its result;
* `failure_stays`       a failure leaves the reader where it was and a match goes no way back, for
                        requests and all parsers inside them.
-/

namespace Packrat

section
variable {τ : Type}

/-- a parser that was started at `start` and has this result leaves the reader at `stop` -/
def Lands (result : Option (Fragment τ)) (start stop : Place) : Prop :=
  match result with
  | none => stop = start
  | some _ => start ≤ stop

theorem Lands.le {result : Option (Fragment τ)} {start stop : Place} (h : Lands result start stop) :
    start ≤ stop := by
  cases result with
  | none => exact h ▸ Place.le_refl start
  | some found => exact h

/-- a parser that was started at `outer` waits for a part that was started at `inner` -/
def Frame.Spans (outer inner : Place) : Frame τ → Prop
  | .sequence _ _ start _ => start = outer ∧ outer ≤ inner
  | .alternative _ _ start => start = outer ∧ inner = outer
  | .repetition _ _ _ _ start before _ => start = outer ∧ before = inner ∧ outer ≤ inner
  | .optional => inner = outer
  | .rule _ start => start = outer ∧ inner = outer

/-- the move of a parser that was started at `outer`, with the reader at `here` after it -/
def Move.Lands (outer here : Place) : Move τ → Prop
  | .answer result => Packrat.Lands result outer here
  | .wait frame _ => frame.Spans outer here

namespace Ledger

/-- the reader stands at or after `p`, and each attempt that is remembered began at or after `p` and
ended where its result allows -/
structure Lawful (p : Place) (l : Ledger τ) : Prop where
  here : p ≤ l.reader.place
  memo : ∀ {key result stop}, l.known? key = some (.done result stop) →
    ∃ start, p ≤ start ∧ start.offset = key.offset ∧ Lands result start stop

/-- a move of a parser that was started at `outer`: it lands where it may, and the ledger is lawful -/
structure Arrives (p outer : Place) (x : Move τ × Ledger τ) : Prop where
  lawful : x.2.Lawful p
  lands : x.1.Lands outer x.2.reader.place

variable {g : Graph τ} {ignorables : List Pattern} {p outer inner : Place} {l : Ledger τ}

theorem Lawful.moveTo (h : l.Lawful p) {q : Place} (hq : p ≤ q) : (l.moveTo q).Lawful p :=
  ⟨hq, h.memo⟩

/-- a move that leaves the reader and the memory alone -/
theorem Lawful.stay (h : l.Lawful p) {l' : Ledger τ} (hreader : l'.reader = l.reader)
    (hmemo : l'.memo = l.memo) {move : Move τ} (hmove : move.Lands outer l.reader.place) :
    Arrives p outer (move, l') := by
  refine ⟨⟨?_, fun {key result stop} hkey => ?_⟩, ?_⟩
  · show p ≤ l'.reader.place
    rw [hreader]
    exact h.here
  · have hknown : l'.known? key = l.known? key := by rw [known?, known?, hmemo]
    exact h.memo (hknown.symm.trans hkey)
  · show move.Lands outer l'.reader.place
    rw [hreader]
    exact hmove

/-- a failure that leaves the reader and the memory alone -/
theorem Lawful.miss (h : l.Lawful p) {l' : Ledger τ} (hreader : l'.reader = l.reader)
    (hmemo : l'.memo = l.memo) : Arrives p l.reader.place (.answer none, l') :=
  h.stay hreader hmemo rfl

theorem Lawful.back (h : l.Lawful p) {q : Place} (hq : p ≤ q) {move : Move τ}
    (hmove : move.Lands outer q) : Arrives p outer (move, l.moveTo q) :=
  ⟨h.moveTo hq, hmove⟩

/-- attempts at rules begin, are answered from memory or are cut off lawfully -/
theorem Lawful.enter (h : l.Lawful p) (rule : Nat) :
    Arrives p l.reader.place (l.enter g rule) := by
  cases hroot : g.root? rule with
  | none =>
    rw [enter_undefined hroot]
    exact h.miss rfl rfl
  | some root =>
    cases hentry : l.known? (l.key rule) with
    | none =>
      rw [enter_absent hroot hentry]
      refine ⟨⟨?_, fun {key result stop} hkey => ?_⟩, ?_⟩
      · rw [begun_reader]
        exact h.here
      · by_cases hne : key = l.key rule
        · have hmemo : l.memo.isSome = true := begun_memo_isSome l rule ▸ isSome_of_known? hkey
          rw [hne, known?_begun_self hmemo] at hkey
          cases hkey
        · rw [known?_begun_of_ne hne] at hkey
          exact h.memo hkey
      · rw [begun_reader]
        exact ⟨rfl, rfl⟩
    | some entry =>
      cases entry with
      | inProgress =>
        rw [enter_inProgress hroot hentry]
        exact h.miss rfl rfl
      | done result stop =>
        rw [enter_done hroot hentry]
        -- the offset of the attempt determines the place where it began: it is this one
        obtain ⟨start, hstart, hoffset, hlands⟩ := h.memo hentry
        have hplace : start = l.reader.place := Place.le_ext hstart h.here hoffset
        subst hplace
        exact ⟨⟨Place.le_trans h.here hlands.le, h.memo⟩, hlands⟩

/-- **A parser that is started moves lawfully.** -/
theorem Lawful.start (h : l.Lawful p) (node : Nat) :
    Arrives p l.reader.place (l.start g ignorables node) := by
  have hrefl := Place.le_refl l.reader.place
  cases hnode : g.nodes[node]? with
  | none =>
    rw [Ledger.start, hnode]
    exact h.miss rfl rfl
  | some found =>
    cases found with
    | sequence parts shape =>
      rw [Ledger.start, hnode]
      cases parts with
      | nil => exact h.stay rfl rfl hrefl
      | cons part parts => exact h.stay rfl rfl ⟨rfl, hrefl⟩
    | alternative choices shape =>
      rw [Ledger.start, hnode]
      cases choices with
      | nil => exact h.miss rfl rfl
      | cons choice choices => exact h.stay rfl rfl ⟨rfl, rfl⟩
    | repetition inner bound shape =>
      rw [Ledger.start, hnode]
      exact h.stay rfl rfl ⟨rfl, rfl, hrefl⟩
    | optional inner =>
      rw [Ledger.start, hnode]
      exact h.stay rfl rfl rfl
    | leaf source pattern role =>
      rw [Ledger.start, hnode]
      cases pattern with
      | none => exact h.miss rfl rfl
      | some pattern =>
        show Arrives p l.reader.place (l.readLeaf ignorables pattern role)
        rw [readLeaf]
        cases hlook : l.reader.look? ignorables pattern with
        | none => exact h.miss rfl rfl
        | some found =>
          obtain ⟨m, r⟩ := found
          have hforward : l.reader.place ≤ r.place := Reader.le_look? hlook
          exact ⟨⟨Place.le_trans h.here hforward, h.memo⟩, hforward⟩
    | reference name rule =>
      rw [Ledger.start, hnode]
      cases rule with
      | none => exact h.miss rfl rfl
      | some rule => exact h.enter rule

theorem Lawful.endRepetition (h : l.Lawful p) (houter : p ≤ outer)
    (hle : outer ≤ l.reader.place) (bound : Bound) (shape : Shape τ) (count : Nat)
    (collected : List (Tree τ)) :
    Arrives p outer (l.endRepetition bound shape count outer collected) := by
  rw [Ledger.endRepetition]
  split
  · exact h.back houter rfl
  · exact h.stay rfl rfl hle

/-- the end of an attempt is remembered lawfully -/
theorem Lawful.closed (h : l.Lawful p) (houter : p ≤ outer) {result : Option (Fragment τ)}
    (hlands : Lands result outer l.reader.place) (rule : Nat) :
    (l.closed rule outer result).Lawful p := by
  refine ⟨h.here, fun {key result' stop} hkey => ?_⟩
  by_cases hne : key = ⟨outer.offset, rule⟩
  · have hmemo := isSome_of_closed hkey
    rw [hne, known?_closed_self hmemo] at hkey
    cases hkey
    exact ⟨outer, houter, by rw [hne], hlands⟩
  · rw [known?_closed_of_ne hne] at hkey
    exact h.memo hkey

/-- **A frame that is resumed moves lawfully**, if its part did. -/
theorem Lawful.resume (h : l.Lawful p) (houter : p ≤ outer) {frame : Frame τ}
    {part : Option (Fragment τ)} (hframe : frame.Spans outer inner)
    (hpart : Lands part inner l.reader.place) : Arrives p outer (l.resume frame part) := by
  have hle := hpart.le
  cases frame with
  | sequence todo shape start collected =>
    obtain ⟨rfl, hinner⟩ := hframe
    have hthrough := Place.le_trans hinner hle
    cases part with
    | none => cases todo <;> exact h.back houter rfl
    | some found =>
      cases todo with
      | nil => exact h.stay rfl rfl hthrough
      | cons part parts => exact h.stay rfl rfl ⟨rfl, hthrough⟩
  | alternative todo shape start =>
    obtain ⟨rfl, rfl⟩ := hframe
    cases part with
    | none =>
      cases todo with
      | nil => exact h.back houter rfl
      | cons choice choices => exact h.back houter ⟨rfl, rfl⟩
    | some found => cases todo <;> exact h.stay rfl rfl hle
  | repetition body bound shape count start before collected =>
    obtain ⟨rfl, rfl, hinner⟩ := hframe
    have hthrough := Place.le_trans hinner hle
    cases part with
    | none => exact h.endRepetition houter hthrough bound shape count collected
    | some found =>
      by_cases hmoved : before.offset < l.reader.offset
      · rw [resume_moved hmoved]
        exact h.stay rfl rfl ⟨rfl, rfl, hthrough⟩
      · rw [resume_still (Nat.not_lt.mp hmoved)]
        have hstalled : (l.stalled before).Lawful p := ⟨h.here, h.memo⟩
        exact hstalled.endRepetition houter hthrough bound shape (count + 1) _
  | optional =>
    subst hframe
    cases part with
    | none => exact h.stay rfl rfl hle
    | some found => exact h.stay rfl rfl hle
  | rule rule start =>
    obtain ⟨rfl, rfl⟩ := hframe
    exact ⟨h.closed houter hpart rule, hpart⟩

end Ledger

/-! ## the frames of a request -/

theorem Frame.Spans.le {outer inner : Place} {frame : Frame τ} (h : frame.Spans outer inner) :
    outer ≤ inner := by
  cases frame with
  | sequence todo shape start collected => exact h.2
  | alternative todo shape start => exact h.2 ▸ Place.le_refl outer
  | repetition body bound shape count start before collected => exact h.2.2
  | optional => exact (show inner = outer from h) ▸ Place.le_refl outer
  | rule rule start => exact h.2 ▸ Place.le_refl outer

/-- these frames wait one for the other, from a parser that was started at `base` to a part that was
started at `inner` -/
inductive Entered (base : Place) : List (Frame τ) → Place → Prop
  | here : Entered base [] base
  | frame {frame : Frame τ} {frames : List (Frame τ)} {outer inner : Place} :
      Entered base frames outer → frame.Spans outer inner → Entered base (frame :: frames) inner

theorem Entered.le {base inner : Place} {frames : List (Frame τ)} (h : Entered base frames inner) :
    base ≤ inner := by
  induction h with
  | here => exact Place.le_refl base
  | frame _ hspans ih => exact Place.le_trans ih hspans.le

/-- the reader stands where the part was started, or where its result has left it -/
def Task.Lands (inner here : Place) : Task τ → Prop
  | .start _ => here = inner
  | .deliver result => Packrat.Lands result inner here

namespace Stage
variable {g : Graph τ} {ignorables : List Pattern} {p base : Place} {below : List (Frame τ)}
  {s s' : Stage τ}

/-- the frames above `below` belong to a parser that was started at `base`, and it has not been left
yet -/
structure Inside (p base : Place) (below : List (Frame τ)) (s : Stage τ) : Prop where
  lawful : s.ledger.Lawful p
  started : p ≤ base
  entered : ∃ above inner, s.frames = above ++ below ∧ Entered base above inner ∧
    s.task.Lands inner s.ledger.reader.place

/-- the parser has its result, and no frame is left above `below` -/
def Returned (below : List (Frame τ)) (s : Stage τ) : Prop :=
  s.frames = below ∧ ∃ result, s.task = .deliver result

theorem Inside.after {above : List (Frame τ)} {outer : Place} {x : Move τ × Ledger τ}
    (hbase : p ≤ base) (habove : Entered base above outer) (hx : Ledger.Arrives p outer x) :
    (Stage.after (above ++ below) x).Inside p base below ∧
      ((Stage.after (above ++ below) x).frames = below →
        (Stage.after (above ++ below) x).Returned below) := by
  obtain ⟨move, l'⟩ := x
  cases move with
  | answer result =>
    refine ⟨⟨hx.lawful, hbase, above, outer, rfl, habove, hx.lands⟩, fun hframes => ?_⟩
    exact ⟨hframes, result, rfl⟩
  | wait frame node =>
    refine ⟨⟨hx.lawful, hbase, frame :: above, l'.reader.place, rfl, habove.frame hx.lands, rfl⟩,
      fun hframes => ?_⟩
    have hlength : (frame :: (above ++ below)).length = below.length := congrArg List.length hframes
    rw [List.length_cons, List.length_append] at hlength
    omega

/-- **A step stays inside**, until the parser has its result. -/
theorem Inside.step (h : s.Inside p base below) (hgoing : ¬ s.Returned below)
    (hstep : s.Step g ignorables s') :
    s'.Inside p base below ∧ (s'.frames = below → s'.Returned below) := by
  obtain ⟨above, inner, hframes, hentered, hlands⟩ := h.entered
  cases hstep with
  | start frames node l =>
    change frames = above ++ below at hframes
    subst hframes
    change l.reader.place = inner at hlands
    subst hlands
    exact Inside.after h.started hentered (h.lawful.start node)
  | resume frame frames result l =>
    change frame :: frames = above ++ below at hframes
    cases hentered with
    | here => exact absurd ⟨hframes, result, rfl⟩ hgoing
    | @frame frame' above outer _ hentered hspans =>
      cases hframes
      exact Inside.after h.started hentered
        (h.lawful.resume (Place.le_trans h.started hentered.le) hspans hlands)

/-- a stage in which a parser is started is inside that parser -/
theorem Inside.begin {frames : List (Frame τ)} {node : Nat} {l : Ledger τ} (h : l.Lawful p) :
    (⟨frames, .start node, l⟩ : Stage τ).Inside p l.reader.place frames :=
  ⟨h, h.here, [], l.reader.place, rfl, .here, rfl⟩

theorem Inside.request {l : Ledger τ} (h : l.Lawful p) (call : Call) :
    (Stage.request g l call).Inside p l.reader.place [] := by
  cases call with
  | parser node => exact .begin h
  | rule rule =>
    have hafter : (Stage.after ([] ++ []) (l.enter g rule)).Inside p l.reader.place [] :=
      (Inside.after h.here .here (h.enter rule)).1
    exact hafter

/-- a parser that has its result has left the reader where it may -/
theorem Inside.lands (h : s.Inside p base below) {result : Option (Fragment τ)}
    (hframes : s.frames = below) (htask : s.task = .deliver result) :
    Lands result base s.ledger.reader.place := by
  obtain ⟨above, inner, habove, hentered, hlands⟩ := h.entered
  have hnil : above = [] := List.append_left_eq_self.mp (habove.symm.trans hframes)
  subst hnil
  cases hentered
  rw [htask] at hlands
  exact hlands

end Stage

/-! ## the furthest offset -/

section
variable {g : Graph τ} {ignorables : List Pattern}

theorem Ledger.furthest_enter (l : Ledger τ) (rule : Nat) :
    (l.enter g rule).2.reader.furthest = l.reader.furthest := by
  cases hroot : g.root? rule with
  | none => rw [enter_undefined hroot]
  | some root =>
    cases hentry : l.known? (l.key rule) with
    | none => rw [enter_absent hroot hentry, begun_reader]
    | some entry =>
      cases entry with
      | inProgress =>
        rw [enter_inProgress hroot hentry]
        rfl
      | done result stop =>
        rw [enter_done hroot hentry]
        rfl

/-- only a match raises the furthest offset, and it raises it to its own end -/
theorem Ledger.furthest_start (l : Ledger τ) (node : Nat) :
    (l.start g ignorables node).2.reader.furthest = match l.reads? g ignorables node with
      | none => l.reader.furthest
      | some (_, r) => max l.reader.furthest r.offset := by
  rw [start, reads?]
  cases g.nodes[node]? with
  | none => rfl
  | some found =>
    cases found with
    | sequence parts shape => cases parts <;> rfl
    | alternative choices shape => cases choices <;> rfl
    | repetition inner bound shape => rfl
    | optional inner => rfl
    | leaf source pattern role =>
      cases pattern with
      | none => rfl
      | some pattern =>
        show (l.readLeaf ignorables pattern role).2.reader.furthest =
          match l.reader.look? ignorables pattern with
          | none => l.reader.furthest
          | some (_, r) => max l.reader.furthest r.offset
        rw [readLeaf]
        cases hlook : l.reader.look? ignorables pattern with
        | none => rfl
        | some found =>
          obtain ⟨m, r⟩ := found
          obtain ⟨q, -, rfl⟩ := Reader.look?_eq_some.mp hlook
          rfl
    | reference name rule =>
      cases rule with
      | none => rfl
      | some rule => exact l.furthest_enter rule

theorem Ledger.furthest_endRepetition (l : Ledger τ) (bound : Bound) (shape : Shape τ) (count : Nat)
    (start : Place) (collected : List (Tree τ)) :
    (l.endRepetition bound shape count start collected).2.reader.furthest = l.reader.furthest := by
  rw [endRepetition]
  split <;> rfl

theorem Ledger.furthest_resume (l : Ledger τ) (frame : Frame τ) (part : Option (Fragment τ)) :
    (l.resume frame part).2.reader.furthest = l.reader.furthest := by
  cases frame with
  | sequence todo shape start collected => cases todo <;> cases part <;> rfl
  | alternative todo shape start => cases todo <;> cases part <;> rfl
  | repetition inner bound shape count start before collected =>
    cases part with
    | none => exact l.furthest_endRepetition bound shape count start collected
    | some found =>
      rw [resume]
      split
      · rfl
      · exact (l.stalled before).furthest_endRepetition bound shape (count + 1) start _
  | optional => cases part <;> rfl
  | rule rule start => rfl

/-- **A step raises the furthest offset to the end of the match it makes, if that is larger.** -/
theorem Stage.Step.furthest_eq {s s' : Stage τ} (h : s.Step g ignorables s') :
    s'.ledger.reader.furthest = match s.reads? g ignorables with
      | none => s.ledger.reader.furthest
      | some (_, r) => max s.ledger.reader.furthest r.offset := by
  cases h with
  | start frames node l =>
    rw [after_ledger]
    exact l.furthest_start node
  | resume frame frames result l =>
    rw [after_ledger]
    exact l.furthest_resume frame result

theorem Stage.Step.furthest_le {s s' : Stage τ} (h : s.Step g ignorables s') :
    s.ledger.reader.furthest ≤ s'.ledger.reader.furthest := by
  rw [h.furthest_eq]
  split
  · exact Nat.le_refl _
  · exact Nat.le_max_left _ _

end

/-! ## machines -/

namespace Machine
variable {g : Graph τ} {ignorables : List Pattern} {p base : Place} {m m' : Machine τ} {s : Stage τ}

variable (g ignorables) in
/-- steps lead from the first machine to the second, and more than `n` frames wait in the states
between them -/
inductive Above (n : Nat) : Machine τ → Machine τ → Prop
  | one {m m' : Machine τ} : Goes g ignorables m m' → Above n m m'
  | more {m m₁ m' : Machine τ} : Goes g ignorables m m₁ → n < m₁.frames.height → Above n m₁ m' →
      Above n m m'

variable (g ignorables) in
/-- the parser that `m` starts next has its result in `m'`, the first state after `m` in which no
more frames wait than in `m` -/
structure Returns (m m' : Machine τ) : Prop where
  above : Above g ignorables m.frames.height m m'
  height : m'.frames.height ≤ m.frames.height

/-- what a parser with that result does to the reader: a failure leaves it where it was, a match
there or further on, and the furthest offset does not go down -/
structure Keeps (result : Option (Fragment τ)) (r r' : Reader) : Prop where
  failed : result = none → r'.place = r.place
  matched : result.isSome = true → r.place ≤ r'.place
  furthest : r.furthest ≤ r'.furthest

theorem keeps_of_lands {result : Option (Fragment τ)} {r r' : Reader}
    (hlands : Lands result r.place r'.place) (hfurthest : r.furthest ≤ r'.furthest) :
    Keeps result r r' := by
  refine ⟨fun hnone => ?_, fun _ => hlands.le, hfurthest⟩
  subst hnone
  exact hlands

theorem At.goes_inside {below : List (Frame τ)} (hm : m.At s) (hs : s.Inside p base below)
    (hgoing : ¬ s.Returned below) (hgoes : Goes g ignorables m m') :
    ∃ s', m'.At s' ∧ s'.Inside p base below ∧ (s'.frames = below → s'.Returned below) := by
  obtain ⟨s', hstep, hm'⟩ := hm.goes hgoes
  obtain ⟨hs', hreturned⟩ := hs.step hgoing hstep
  exact ⟨s', hm', hs', hreturned⟩

/-- no step is left once the request has its result -/
theorem At.not_returned (hm : m.At s) (hgoes : Goes g ignorables m m') : ¬ s.Returned [] := by
  rintro ⟨hframes, result, htask⟩
  obtain ⟨s', hstep, -⟩ := hm.goes hgoes
  cases hstep with
  | start frames node l => cases htask
  | resume frame frames result l => cases hframes

theorem Steps.inside (hsteps : Steps g ignorables m m') (hm : m.At s) (hs : s.Inside p base []) :
    ∃ s', m'.At s' ∧ s'.Inside p base [] := by
  induction hsteps with
  | refl => exact ⟨s, hm, hs⟩
  | tail _ hgoes ih =>
    obtain ⟨s₁, hm₁, hs₁⟩ := ih
    obtain ⟨s₂, hm₂, hs₂, -⟩ := hm₁.goes_inside hs₁ (hm₁.not_returned hgoes) hgoes
    exact ⟨s₂, hm₂, hs₂⟩

theorem Steps.furthest_le (hsteps : Steps g ignorables m m') (hm : m.At s) :
    m.reader.furthest ≤ m'.reader.furthest := by
  have hall : ∃ s', m'.At s' ∧ s.ledger.reader.furthest ≤ s'.ledger.reader.furthest := by
    induction hsteps with
    | refl => exact ⟨s, hm, Nat.le_refl _⟩
    | tail _ hgoes ih =>
      obtain ⟨s₁, hm₁, hle⟩ := ih
      obtain ⟨s₂, hstep, hm₂⟩ := hm₁.goes hgoes
      exact ⟨s₂, hm₂, Nat.le_trans hle hstep.furthest_le⟩
  obtain ⟨s', hm', hle⟩ := hall
  rw [← hm.ledger, ← hm'.ledger] at hle
  exact hle

theorem Above.steps {n : Nat} (h : Above g ignorables n m m') : Steps g ignorables m m' := by
  induction h with
  | one hgoes => exact .single hgoes
  | more hgoes _ _ ih => exact .head hgoes ih

theorem height_eq (hm : m.At s) : m.frames.height = s.frames.length := by
  rw [m.frames.height_eq, hm.frames]

/-- while more frames wait than `below`, the steps stay inside -/
theorem Above.inside {n : Nat} {below : List (Frame τ)} (h : Above g ignorables n m m')
    (hn : below.length = n) (hm : m.At s) (hs : s.Inside p base below)
    (hgoing : ¬ s.Returned below) :
    ∃ s', m'.At s' ∧ s'.Inside p base below ∧ (s'.frames = below → s'.Returned below) := by
  induction h generalizing s with
  | one hgoes => exact hm.goes_inside hs hgoing hgoes
  | @more m m₁ m' hgoes hheight _ ih =>
    obtain ⟨s₁, hm₁, hs₁, -⟩ := hm.goes_inside hs hgoing hgoes
    refine ih hm₁ hs₁ fun hreturned => ?_
    have hlength := height_eq hm₁
    rw [hreturned.1] at hlength
    omega

/-- **The parser that is started next leaves the stacks as they were**, but for its result, and the
reader where it may. -/
theorem Returns.keeps (h : Returns g ignorables m m') {node : Nat} {frames : List (Frame τ)}
    {l : Ledger τ} (hm : m.At ⟨frames, .start node, l⟩) (hl : l.Lawful p) :
    m'.work = [] ∧ m'.frames = m.frames ∧
      ∃ result, m'.results = [result] ∧ Keeps result m.reader m'.reader := by
  have hframes : m.frames.items = frames := hm.frames
  have hreader : m.reader = l.reader := congrArg Ledger.reader hm.ledger
  have hgoing : ¬ Stage.Returned frames (⟨frames, .start node, l⟩ : Stage τ) := by
    rintro ⟨-, result, htask⟩
    cases htask
  have hlength : frames.length = m.frames.height := (height_eq hm).symm
  obtain ⟨s', hm', hs', hreturned⟩ := h.above.inside hlength hm (.begin hl) hgoing
  obtain ⟨above, inner, habove, -, -⟩ := hs'.entered
  have hheight := h.height
  rw [height_eq hm', habove, List.length_append, hlength] at hheight
  have hnil : above = [] := List.length_eq_zero_iff.mp (by omega)
  rw [hnil, List.nil_append] at habove
  obtain ⟨-, result, htask⟩ := hreturned habove
  have hfaces := hm'.task
  rw [htask] at hfaces
  have hlands := hs'.lands habove htask
  rw [← hreader, ← hm'.ledger] at hlands
  refine ⟨hfaces.1, Pile.ext_items ?_, result, hfaces.2, ?_⟩
  · rw [hm'.frames, habove, hframes]
  · exact keeps_of_lands hlands (h.above.steps.furthest_le hm)

/-! ## requests -/

theorem goes_unique : Relator.RightUnique (Goes g ignorables (τ := τ)) := by
  intro m m₁ m₂ h₁ h₂
  rw [Goes] at h₁ h₂
  rw [h₁] at h₂
  cases h₂
  rfl

/-- a run that comes to a state with few frames passes a first one -/
theorem exists_above {n : Nat} {m₁ : Machine τ} (hsteps : Steps g ignorables m₁ m')
    (hend : m'.frames.height ≤ n) (hgoes : Goes g ignorables m m₁) :
    ∃ b, Above g ignorables n m b ∧ b.frames.height ≤ n := by
  induction hsteps using Relation.ReflTransGen.head_induction_on generalizing m with
  | refl => exact ⟨m', .one hgoes, hend⟩
  | @head m₁ m₂ hstep _ ih =>
    by_cases hheight : m₁.frames.height ≤ n
    · exact ⟨m₁, .one hgoes, hheight⟩
    · obtain ⟨b, habove, hb⟩ := ih hstep
      exact ⟨b, .more hgoes (Nat.lt_of_not_le hheight) habove, hb⟩

/-- in a run that comes to its end, every parser that is started comes to its result -/
theorem exists_returns {first last finished : Machine τ} (hm : Steps g ignorables first m)
    (hlast : Steps g ignorables first last)
    (hend : last.observe.advance g ignorables = .finished finished) {node : Nat}
    {frames : List (Frame τ)} {l : Ledger τ} (hat : m.At ⟨frames, .start node, l⟩)
    (hlastAt : last.At s) : ∃ b, Returns g ignorables m b := by
  have hnone : ∀ m', ¬ Goes g ignorables last m' := by
    intro m' hgoes
    rw [Goes, hend] at hgoes
    cases hgoes
  have hheight : last.frames.height = 0 := by
    rw [height_eq hlastAt, (hlastAt.finished hend).1]
    rfl
  have hreach : Steps g ignorables m last := by
    rcases Relation.ReflTransGen.total_of_right_unique goes_unique hm hlast with h | h
    · exact h
    · rcases Relation.ReflTransGen.cases_head h with rfl | ⟨m₁, hgoes, -⟩
      · exact .refl
      · exact absurd hgoes (hnone m₁)
  rcases Relation.ReflTransGen.cases_head hreach with rfl | ⟨m₁, hgoes, hrest⟩
  · rw [advance_start hat.task.1] at hend
    cases hend
  · obtain ⟨b, habove, hb⟩ := exists_above hrest (n := m.frames.height) (by omega) hgoes
    exact ⟨b, habove, hb⟩

theorem Visits.lawful {reader : Reader} {memoize : Bool} {found : List Match}
    (h : Visits g ignorables (fresh reader memoize) found m) :
    (m.Idle ∧ m.ledger.Lawful reader.place) ∨
      ∃ s base, m.At s ∧ s.Inside reader.place base [] := by
  induction h with
  | first =>
    refine .inl ⟨fresh_idle reader memoize, Place.le_refl _, fun {key result stop} hkey => ?_⟩
    rw [fresh_known?] at hkey
    cases hkey
  | @request found m call _ hidle ih =>
    rcases ih with ⟨-, hl⟩ | ⟨s, base, hm, hs⟩
    · exact .inr ⟨_, m.reader.place, at_request hidle call, .request hl call⟩
    · have hl : m.ledger.Lawful reader.place := hm.ledger ▸ hs.lawful
      exact .inr ⟨_, m.reader.place, at_request hidle call, .request hl call⟩
  | @step found m m' _ hgoes ih =>
    rcases ih with ⟨hidle, -⟩ | ⟨s, base, hm, hs⟩
    · exact absurd hgoes hidle.not_goes
    · obtain ⟨s', hm', hs', -⟩ := hm.goes_inside hs (hm.not_returned hgoes) hgoes
      exact .inr ⟨s', base, hm', hs'⟩
  | @finish found m m' _ hend ih =>
    rcases ih with ⟨hidle, hl⟩ | ⟨s, base, hm, hs⟩
    · obtain ⟨hidle', hledger⟩ := hidle.finished hend
      exact .inl ⟨hidle', hledger ▸ hl⟩
    · obtain ⟨-, result, -, -, hidle, hledger⟩ := hm.finished hend
      exact .inl ⟨hidle, hledger ▸ hs.lawful⟩

/-- between two requests a machine is idle, and during one it is at a stage -/
theorem Visits.idle_or_at {reader : Reader} {memoize : Bool} {found : List Match}
    (h : Visits g ignorables (fresh reader memoize) found m) : m.Idle ∨ ∃ s, m.At s := by
  rcases h.lawful with ⟨hidle, -⟩ | ⟨s, -, hat, -⟩
  · exact .inl hidle
  · exact .inr ⟨s, hat⟩

theorem Visits.at_of_goes {reader : Reader} {memoize : Bool} {found : List Match}
    (h : Visits g ignorables (fresh reader memoize) found m) (hgoes : Goes g ignorables m m') :
    ∃ s, m.At s :=
  h.idle_or_at.resolve_left fun hidle => hidle.not_goes hgoes

/-- a machine that is done with a request is idle again, with what it has read and remembered -/
theorem Visits.finished {reader : Reader} {memoize : Bool} {found : List Match}
    (h : Visits g ignorables (fresh reader memoize) found m)
    (hend : m.observe.advance g ignorables = .finished m') :
    m.frames = .empty ∧ m'.takeResult.2.Idle ∧ m'.takeResult.2.ledger = m.ledger := by
  rcases h.idle_or_at with hidle | ⟨s, hat⟩
  · exact ⟨hidle.frames, hidle.finished hend⟩
  · obtain ⟨hframes, -, -, -, hidle, hledger⟩ := hat.finished hend
    exact ⟨frames_eq_empty (hat.frames.trans hframes), hidle, hledger.trans hat.ledger.symm⟩

theorem Visits.ledger_lawful {reader : Reader} {memoize : Bool} {found : List Match}
    (h : Visits g ignorables (fresh reader memoize) found m) : m.ledger.Lawful reader.place := by
  rcases h.lawful with ⟨-, hl⟩ | ⟨s, base, hm, hs⟩
  · exact hl
  · exact hm.ledger ▸ hs.lawful

theorem request_furthest (hm : m.Idle) (call : Call) :
    (m.request g call).reader.furthest = m.reader.furthest := by
  have hledger : (m.request g call).ledger = (Stage.request g m.ledger call).ledger :=
    (at_request hm call).ledger
  cases call with
  | parser node => rfl
  | rule rule =>
    have henter : (m.request g (.rule rule)).ledger = (m.ledger.enter g rule).2 :=
      hledger.trans (Stage.after_ledger _ _)
    exact (congrArg (·.reader.furthest) henter).trans (m.ledger.furthest_enter rule)

/-- a request that has its result has left the reader where it may -/
theorem request_keeps (hm : m.Idle) (hl : m.ledger.Lawful p) {call : Call} {last finished : Machine τ}
    (hsteps : Steps g ignorables (m.request g call) last)
    (hend : last.observe.advance g ignorables = .finished finished) :
    finished.takeResult.2.Idle ∧
      Keeps finished.takeResult.1 m.reader finished.takeResult.2.reader := by
  have hat := at_request (g := g) hm call
  obtain ⟨s, hlast, hs⟩ := hsteps.inside hat (.request hl call)
  obtain ⟨hframes, result, htask, hresult, hidle, hledger⟩ := hlast.finished hend
  have hlands := hs.lands hframes htask
  have hreader : finished.takeResult.2.reader = last.reader :=
    congrArg Ledger.reader (hledger.trans hlast.ledger.symm)
  have hfurthest := hsteps.furthest_le hat
  rw [request_furthest hm call, ← hreader] at hfurthest
  rw [← hledger] at hlands
  rw [hresult]
  exact ⟨hidle, keeps_of_lands hlands hfurthest⟩

/-- a frame that ends an attempt and takes a failure finds the reader where the attempt began -/
theorem At.rule_failed (hm : m.At s) (hs : s.Inside p base []) {rule : Nat} {start : Place}
    {frames : Pile (Frame τ)} (hwork : m.work = []) (hframes : m.frames = frames.push (.rule rule start))
    (hresult : m.takeResult.1 = none) : m.reader.place = start := by
  obtain ⟨items, task, l⟩ := s
  have hitems : m.frames.items = items := hm.frames
  have hreader : m.reader = l.reader := congrArg Ledger.reader hm.ledger
  have htask := hm.task
  cases task with
  | start node =>
    rw [htask.1] at hwork
    cases hwork
  | deliver result =>
    have hnone : result = none := by
      rw [takeResult, htask.2] at hresult
      exact hresult
    obtain ⟨above, inner, habove, hentered, hlands⟩ := hs.entered
    change items = above ++ [] at habove
    rw [hnone] at hlands
    change l.reader.place = inner at hlands
    rw [List.append_nil, ← hitems, hframes, Pile.items_push] at habove
    subst habove
    cases hentered with
    | frame _ hspans =>
      obtain ⟨rfl, rfl⟩ := hspans
      rw [hreader, hlands]

end Machine

open Machine in
/-- **A failure leaves the reader where it was, and a match leaves it there or further on.**  It does
so for every request, with or without a memory, after any others; for every parser that is started
meanwhile; and in every attempt at a rule that fails.  The stacks are then as they were, and the
furthest offset is no smaller. -/
theorem failure_stays (g : Graph τ) (ignorables : List Pattern) (reader : Reader) (memoize : Bool)
    {limit : Nat} {calls : List Call} {replies : List (Reply τ)} {m : Machine τ}
    (hsession : (fresh reader memoize).session? g ignorables limit calls = some (replies, m))
    (call : Call) :
    (∀ limit result m', m.serve? g ignorables limit call = some (result, m') →
      m'.Idle ∧ Keeps result m.reader m'.reader ∧
        ∀ a node rest, Steps g ignorables (m.request g call) a → a.work = node :: rest →
          ∃ b, Returns g ignorables a b) ∧
    ∀ a, Steps g ignorables (m.request g call) a →
      (∀ node rest b, a.work = node :: rest → Returns g ignorables a b →
        b.work = rest ∧ b.frames = a.frames ∧
          ∃ result, b.results = result :: a.results ∧ Keeps result a.reader b.reader) ∧
      ∀ rule start (frames : Pile (Frame τ)), a.work = [] →
        a.frames = frames.push (.rule rule start) → a.takeResult.1 = none →
        a.reader.place = start := by
  have hidle : m.Idle := (serves_of_session? (fresh_idle reader memoize) hsession).1
  obtain ⟨found, hvisits⟩ := Visits.first.session? (fresh_idle reader memoize) hsession
  have hlawful := hvisits.ledger_lawful
  have hat := at_request (g := g) hidle call
  have hinside : (Stage.request g m.ledger call).Inside reader.place m.reader.place [] :=
    .request hlawful call
  -- a machine that has something to start is at a stage that starts it
  have hstarts : ∀ a node rest, Steps g ignorables (m.request g call) a → a.work = node :: rest →
      ∃ frames l, a.At ⟨frames, .start node, l⟩ ∧ l.Lawful reader.place ∧ rest = [] := by
    intro a node rest ha hwork
    obtain ⟨⟨frames, task, l⟩, hm, hs⟩ := ha.inside hat hinside
    have htask := hm.task
    cases task with
    | start node' =>
      cases htask.1.symm.trans hwork
      exact ⟨frames, l, hm, hs.lawful, rfl⟩
    | deliver result => cases htask.1.symm.trans hwork
  constructor
  · intro limit result m' hserve
    obtain ⟨last, finished, hsteps, hend, htake⟩ := steps_of_serve? hserve
    have hkeeps := request_keeps hidle hlawful hsteps hend
    rw [htake] at hkeeps
    obtain ⟨s, hlast, -⟩ := hsteps.inside hat hinside
    refine ⟨hkeeps.1, hkeeps.2, fun a node rest ha hwork => ?_⟩
    obtain ⟨frames, l, hm, -, -⟩ := hstarts a node rest ha hwork
    exact exists_returns ha hsteps hend hm hlast
  · intro a ha
    constructor
    · intro node rest b hwork hreturns
      obtain ⟨frames, l, hm, hl, rfl⟩ := hstarts a node rest ha hwork
      have hresults : a.results = [] := hm.task.2
      rw [hresults]
      exact hreturns.keeps hm hl
    · intro rule start frames hwork hframes hresult
      obtain ⟨s, hm, hs⟩ := ha.inside hat hinside
      exact hm.rule_failed hs hwork hframes hresult

end

/-! ## a rule that begins with itself -/

namespace Growing

/-- `a ::= a "x" | "y"` -/
def grammar : Grammar Unit :=
  Grammar.empty.declare (({ name := "a" } : Rule.Draft Unit).call "a" |>.hide "x" |>.or |>.hide "y")

/-- a machine with a memory at the beginning of the text `yxz` -/
def machine : Machine Unit := .fresh (Reader.first "yxz".toList) true

/-- after a match of the rule up to the first offset, it fails there and the reader stays -/
theorem failure_stays_after_match :
    ∃ replies m m', machine.session? grammar.compile [] 100 [.rule 0] = some (replies, m) ∧
      m.reader.offset = 1 ∧ m.serve? grammar.compile [] 100 (.rule 0) = some (none, m') ∧
      m'.Idle ∧ m'.reader.place = m.reader.place := by
  have hview : (machine.session? grammar.compile [] 100 [.rule 0]).map (fun x =>
      (x.2.reader.offset, (x.2.serve? grammar.compile [] 100 (.rule 0)).map (·.1.isNone))) =
        some (1, some true) := by
    decide +kernel
  obtain ⟨⟨replies, m⟩, hm, hview⟩ := Option.map_eq_some_iff.mp hview
  obtain ⟨hoffset, hserve⟩ := Prod.mk.inj hview
  obtain ⟨⟨result, m'⟩, hm', hnone⟩ := Option.map_eq_some_iff.mp hserve
  cases result with
  | some found => cases hnone
  | none =>
    have h := failure_stays grammar.compile [] (Reader.first "yxz".toList) true hm (.rule 0)
    obtain ⟨hidle, hkeeps, -⟩ := h.1 100 none m' hm'
    exact ⟨replies, m, m', hm, hoffset, hm', hidle, hkeeps.failed rfl⟩

end Growing

end Packrat
