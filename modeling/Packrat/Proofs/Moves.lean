import Packrat.Proofs.Ledger
import Packrat.Proofs.Reading

/-!
# Moves that do not concern the memory

Apart from attempts at rules, a move depends on the place alone, and two runs that stand at the same
place make the same one.  The cases of `Ledger.start` and `Ledger.resume` are gone through once,
here.

* `Move.Plain P`        a result, or a wait by a frame that is no attempt at a rule and goes back,
                        if at all, to a place with `P`;
* `Congruence R P`      a relation of ledgers at the same place that reading, going back to a place
                        with `P`, counting and noting keep;
* `Alike R P`           two runs make the same plain move, and stay related;
* `start_alike_of_plain`, `resume_alike`   they do;
* `Ledger.proceed`, `Ledger.choose`   what a sequence and an alternative do with the parts to come.
-/

namespace Packrat

/-- the place that a parser goes back to when it fails -/
def Frame.start? {τ : Type} : Frame τ → Option Place
  | .sequence _ _ start _ => some start
  | .alternative _ _ start => some start
  | .repetition _ _ _ _ start _ _ => some start
  | .optional => none
  | .rule _ _ => none

/-- the attempt that ends when the frame is resumed -/
def Frame.attempt? {τ : Type} : Frame τ → Option Memo.Key
  | .rule number start => some ⟨start.offset, number⟩
  | _ => none

/-- no attempt ends with the frame, and the place that it goes back to has `P` -/
structure Frame.Plain {τ : Type} (P : Place → Prop) (frame : Frame τ) : Prop where
  attempt : frame.attempt? = none
  start : ∀ p, frame.start? = some p → P p

/-- a result, or a wait by a plain frame -/
def Move.Plain {τ : Type} (P : Place → Prop) : Move τ → Prop
  | .answer _ => True
  | .wait frame _ => frame.Plain P

/-- an event that concerns no attempt at a rule -/
def Event.Plain : Event → Prop
  | .unresolved _ => True
  | .stalled _ => True
  | _ => False

section
variable {τ : Type}

/-- the ledger after reading up to `q` -/
def Ledger.readTo (l : Ledger τ) (q : Place) : Ledger τ :=
  { l with reader := ⟨q, max l.reader.furthest q.offset⟩ }

/-- related ledgers stand at the same place, which has `P`, and stay related -/
structure Congruence (R : Ledger τ → Ledger τ → Prop) (P : Place → Prop) : Prop where
  same : ∀ {l l'}, R l l' → l.reader.place = l'.reader.place
  here : ∀ {l l'}, R l l' → P l.reader.place
  moveTo : ∀ {l l' p}, R l l' → P p → R (l.moveTo p) (l'.moveTo p)
  readTo : ∀ {l l' q}, R l l' → l.reader.place ≤ q → R (l.readTo q) (l'.readTo q)
  count : ∀ {l l'} (f : Tally → Tally), (∀ t, (f t).recursionCuts = t.recursionCuts) →
    R l l' → R (l.count f) (l'.count f)
  note : ∀ {l l'} (e : Event), e.Plain → R l l' → R (l.note e) (l'.note e)

/-- the same plain move from related ledgers to related ledgers -/
structure Alike (R : Ledger τ → Ledger τ → Prop) (P : Place → Prop) (x y : Move τ × Ledger τ) :
    Prop where
  move : x.1 = y.1
  plain : x.1.Plain P
  ledger : R x.2 y.2

variable {ignorables : List Pattern} {R : Ledger τ → Ledger τ → Prop}
  {P : Place → Prop}

theorem readLeaf_alike (hR : Congruence R P) {l l' : Ledger τ} (h : R l l') (pattern : Pattern)
    (role : Role τ) :
    Alike R P (l.readLeaf ignorables pattern role) (l'.readLeaf ignorables pattern role) := by
  have htried : R l.tried l'.tried := hR.count _ (fun _ => rfl) h
  have hsame : l'.reader.place = l.reader.place := (hR.same h).symm
  rw [Ledger.readLeaf, Ledger.readLeaf]
  cases hlook : l.reader.look? ignorables pattern with
  | none =>
    have hlook' : l'.reader.look? ignorables pattern = none := by
      rw [Reader.look?_eq_none, hsame]
      exact Reader.look?_eq_none.mp hlook
    rw [hlook']
    exact ⟨rfl, trivial, htried⟩
  | some found =>
    obtain ⟨m, r⟩ := found
    obtain ⟨q, hq, rfl⟩ := Reader.look?_eq_some.mp hlook
    have hlook' : l'.reader.look? ignorables pattern =
        some (m, ⟨q, max l'.reader.furthest q.offset⟩) :=
      Reader.look?_eq_some.mpr ⟨q, hsame ▸ hq, rfl⟩
    rw [hlook']
    exact ⟨rfl, trivial, hR.count (fun t => { t with leafMatches := t.leafMatches + 1 })
      (fun _ => rfl) (hR.readTo htried (le_lookAlong? _ hq))⟩

/-- **A parser is started alike at the same place**, unless it is a reference to a rule. -/
theorem start_alike_of_plain (g : Graph τ) (ignorables : List Pattern) (hR : Congruence R P)
    {l l' : Ledger τ} (h : R l l') {node : Nat}
    (hplain : ∀ name rule, g.nodes[node]? ≠ some (.reference name (some rule))) :
    Alike R P (l.start g ignorables node) (l'.start g ignorables node) := by
  have hsame := hR.same h
  have hhere : ∀ p, some l.reader.place = some p → P p := by
    intro p hp
    cases hp
    exact hR.here h
  rw [Ledger.start, Ledger.start]
  cases hnode : g.nodes[node]? with
  | none => exact ⟨rfl, trivial, h⟩
  | some found =>
    cases found with
    | sequence parts shape =>
      cases parts with
      | nil => exact ⟨rfl, trivial, h⟩
      | cons part parts => exact ⟨by rw [hsame], ⟨rfl, hhere⟩, h⟩
    | alternative choices shape =>
      cases choices with
      | nil => exact ⟨rfl, trivial, h⟩
      | cons choice choices => exact ⟨by rw [hsame], ⟨rfl, hhere⟩, h⟩
    | repetition inner bound shape => exact ⟨by rw [hsame], ⟨rfl, hhere⟩, h⟩
    | optional inner =>
      refine ⟨rfl, ⟨rfl, fun p hp => ?_⟩, h⟩
      cases hp
    | leaf source pattern role =>
      cases pattern with
      | none => exact ⟨rfl, trivial, h⟩
      | some pattern => exact readLeaf_alike hR h pattern role
    | reference name rule =>
      cases rule with
      | none => exact ⟨rfl, trivial, hR.note _ trivial h⟩
      | some rule => exact absurd hnode (hplain name rule)

theorem Ledger.start_reference {g : Graph τ} {node rule : Nat} {name : String}
    (h : g.nodes[node]? = some (.reference name (some rule))) (l : Ledger τ) :
    l.start g ignorables node = l.enter g rule := by
  rw [start, h]

theorem start_alike (g : Graph τ) (ignorables : List Pattern) (hR : Congruence R P)
    {l l' : Ledger τ} (h : R l l') (node : Nat) :
    (∃ rule, ∀ l : Ledger τ, l.start g ignorables node = l.enter g rule) ∨
      Alike R P (l.start g ignorables node) (l'.start g ignorables node) := by
  by_cases hnode : ∃ name rule, g.nodes[node]? = some (.reference name (some rule))
  · obtain ⟨name, rule, hnode⟩ := hnode
    exact .inl ⟨rule, Ledger.start_reference hnode⟩
  · exact .inr (start_alike_of_plain g ignorables hR h fun name rule hrule =>
      hnode ⟨name, rule, hrule⟩)

theorem endRepetition_alike (hR : Congruence R P) {l l' : Ledger τ} (h : R l l') (bound : Bound)
    (shape : Shape τ) (count : Nat) {start : Place} (hstart : P start)
    (collected : List (Tree τ)) :
    Alike R P (l.endRepetition bound shape count start collected)
      (l'.endRepetition bound shape count start collected) := by
  rw [Ledger.endRepetition, Ledger.endRepetition]
  split
  · exact ⟨rfl, trivial, hR.moveTo h hstart⟩
  · exact ⟨rfl, trivial, h⟩

/-- **A plain frame is resumed alike at the same place.** -/
theorem resume_alike (hR : Congruence R P) {l l' : Ledger τ} (h : R l l') {frame : Frame τ}
    (hframe : frame.Plain P) (part : Option (Fragment τ)) :
    Alike R P (l.resume frame part) (l'.resume frame part) := by
  cases frame with
  | sequence todo shape start collected =>
    have hstart : P start := hframe.start start rfl
    cases part with
    | none => cases todo <;> exact ⟨rfl, trivial, hR.moveTo h hstart⟩
    | some r =>
      cases todo with
      | nil => exact ⟨rfl, trivial, h⟩
      | cons part parts => exact ⟨rfl, ⟨rfl, hframe.start⟩, h⟩
  | alternative todo shape start =>
    have hstart : P start := hframe.start start rfl
    cases part with
    | none =>
      cases todo with
      | nil => exact ⟨rfl, trivial, hR.moveTo h hstart⟩
      | cons choice choices => exact ⟨rfl, ⟨rfl, hframe.start⟩, hR.moveTo h hstart⟩
    | some r => cases todo <;> exact ⟨rfl, trivial, h⟩
  | repetition inner bound shape count start before collected =>
    have hstart : P start := hframe.start start rfl
    cases part with
    | none => exact endRepetition_alike hR h bound shape count hstart collected
    | some r =>
      have hoffset : l'.reader.offset = l.reader.offset :=
        congrArg Place.offset (hR.same h).symm
      have hstalled : R (l.stalled before) (l'.stalled before) :=
        hR.note _ trivial (hR.count _ (fun _ => rfl) h)
      rw [Ledger.resume, Ledger.resume, hoffset, ← hR.same h]
      split
      · exact ⟨rfl, ⟨rfl, hframe.start⟩, h⟩
      · exact endRepetition_alike hR hstalled bound shape (count + 1) hstart _
  | optional => cases part <;> exact ⟨rfl, trivial, h⟩
  | rule rule start => cases hframe.attempt

end

/-! ## what is still to come -/

namespace Ledger
variable {τ : Type}

/-- goes on with the parts of a sequence -/
def proceed (parts : List Nat) (shape : Shape τ) (start : Place) (collected : List (Tree τ))
    (l : Ledger τ) : Move τ × Ledger τ :=
  match parts with
  | [] => (.answer (some (shape.apply collected.reverse)), l)
  | part :: parts => (.wait (.sequence parts shape start collected) part, l)

/-- goes on with the choices of an alternative -/
def choose (choices : List Nat) (shape : Shape τ) (start : Place) (l : Ledger τ) :
    Move τ × Ledger τ :=
  match choices with
  | [] => (.answer none, l)
  | choice :: choices => (.wait (.alternative choices shape start) choice, l)

variable {g : Graph τ} {ignorables : List Pattern} {l : Ledger τ} {node : Nat}

theorem start_sequence {parts : List Nat} {shape : Shape τ}
    (h : g.nodes[node]? = some (.sequence parts shape)) :
    l.start g ignorables node = l.proceed parts shape l.reader.place [] := by
  rw [start, h]
  cases parts <;> rfl

theorem start_alternative {choices : List Nat} {shape : Shape τ}
    (h : g.nodes[node]? = some (.alternative choices shape)) :
    l.start g ignorables node = l.choose choices shape l.reader.place := by
  rw [start, h]
  cases choices <;> rfl

theorem resume_sequence (parts : List Nat) (shape : Shape τ) (start : Place)
    (collected : List (Tree τ)) (found : Fragment τ) :
    l.resume (.sequence parts shape start collected) (some found) =
      l.proceed parts shape start (found.collected.reverse ++ collected) := by
  cases parts <;> rfl

theorem resume_alternative (choices : List Nat) (shape : Shape τ) (start : Place) :
    l.resume (.alternative choices shape start) none =
      (l.moveTo start).choose choices shape start := by
  cases choices <;> rfl

theorem resume_moved {before : Place} (h : before.offset < l.reader.offset) (inner count : Nat)
    (bound : Bound) (shape : Shape τ) (start : Place) (collected : List (Tree τ))
    (found : Fragment τ) :
    l.resume (.repetition inner bound shape count start before collected) (some found) =
      (.wait (.repetition inner bound shape (count + 1) start l.reader.place
        (found.collected.reverse ++ collected)) inner, l) := by
  rw [resume, if_pos h]

theorem resume_still {before : Place} (h : l.reader.offset ≤ before.offset) (inner count : Nat)
    (bound : Bound) (shape : Shape τ) (start : Place) (collected : List (Tree τ))
    (found : Fragment τ) :
    l.resume (.repetition inner bound shape count start before collected) (some found) =
      (l.stalled before).endRepetition bound shape (count + 1) start
        (found.collected.reverse ++ collected) := by
  rw [resume, if_neg (Nat.not_lt.mpr h)]

end Ledger

end Packrat
