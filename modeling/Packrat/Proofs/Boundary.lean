import Packrat.Parse
import Packrat.Proofs.Standing

/-!
# Places lie between characters

* `Place.Sound text p`   the offset of `p` is the start of a character of the text or its end, and
                         what `p` says to follow does follow there;
* `Skips`                the places that are come to by skipping ignorable text;
* `Frame.marks`          the places that a frame keeps;
* `Machine.All P`        every place that a machine keeps has `P`;
* `Stage.Step.all`       a step brings in no other place than the end of the match it makes;
* `Machine.Visits.charted`   the places that a machine keeps are places of its text, none after the
                         furthest offset, and that is the end of some match;
* `places_sound`         no offset that a machine comes by, and none that an error shows, is inside a
                         character.
-/

namespace Packrat

/-! ## sound places -/

/-- `p` stands in the text between two characters or at an end -/
structure Place.Sound (text : String) (p : Place) : Prop where
  valid : String.Pos.Raw.IsValid text ⟨p.offset⟩
  le : p.offset ≤ text.utf8ByteSize
  cut : (cut? text.toList p.offset).map Prod.snd = some p.rest

theorem utf8ByteSize_ofList (cs : List Char) : (String.ofList cs).utf8ByteSize = byteLength cs := by
  induction cs with
  | nil => rfl
  | cons c cs ih =>
    have hsplit : String.ofList (c :: cs) = String.ofList [c] ++ String.ofList cs := by
      rw [← String.ofList_append]
      rfl
    have hone : (String.ofList [c]).utf8ByteSize = c.utf8Size := String.utf8ByteSize_singleton
    rw [hsplit, String.utf8ByteSize_append, ih, hone, byteLength_cons]

theorem cutAfter?_append (seen passed rest : List Char) :
    cutAfter? seen (passed ++ rest) (byteLength passed) = some (passed.reverse ++ seen, rest) := by
  induction passed generalizing seen with
  | nil => cases rest <;> simp [cutAfter?]
  | cons c passed ih =>
    have hpos : 0 < c.utf8Size := c.utf8Size_pos
    have hzero : ¬ (c.utf8Size + byteLength passed = 0) := by omega
    have hinside : ¬ (c.utf8Size + byteLength passed < c.utf8Size) := by omega
    have hleft : c.utf8Size + byteLength passed - c.utf8Size = byteLength passed := by omega
    rw [List.cons_append, byteLength_cons, cutAfter?, if_neg hzero, if_neg hinside, hleft, ih]
    simp

theorem cut?_of_le {text : List Char} {p : Place} (h : Place.first text ≤ p) :
    ∃ passed, text = passed ++ p.rest ∧ p.offset = byteLength passed ∧
      cut? text p.offset = some (passed.reverse, p.rest) := by
  obtain ⟨passed, htext, hoffset⟩ := h
  have hcut := cutAfter?_append [] passed p.rest
  change text = passed ++ p.rest at htext
  change p.offset = 0 + byteLength passed at hoffset
  rw [Nat.zero_add] at hoffset
  rw [← htext, ← hoffset, List.append_nil] at hcut
  exact ⟨passed, htext, hoffset, hcut⟩

/-- **A place at or after the first of a text is sound.** -/
theorem Place.sound_of_le {text : String} {p : Place} (h : Place.first text.toList ≤ p) :
    p.Sound text := by
  obtain ⟨passed, htext, hoffset, hcut⟩ := cut?_of_le h
  have hsplit : text = String.ofList passed ++ String.ofList p.rest := by
    rw [← String.ofList_append, ← htext, String.ofList_toList]
  have hend : (⟨p.offset⟩ : String.Pos.Raw) = (String.ofList passed).rawEndPos := by
    rw [String.rawEndPos, utf8ByteSize_ofList, hoffset]
  have hvalid : String.Pos.Raw.IsValid text ⟨p.offset⟩ :=
    String.Pos.Raw.isValid_iff_exists_append.mpr ⟨_, _, hsplit, hend⟩
  refine ⟨hvalid, hvalid.le_utf8ByteSize, ?_⟩
  rw [hcut]
  rfl

/-- the text of a place ends where the whole text does -/
theorem Place.limit_of_le {text : String} {p : Place} (h : Place.first text.toList ≤ p) :
    p.limit = text.utf8ByteSize := by
  have hlength := utf8ByteSize_ofList text.toList
  rw [String.ofList_toList] at hlength
  rw [Place.limit_eq h, hlength]
  exact Nat.zero_add _

/-- the position of a sound place is found, and it has the same offset -/
theorem Place.Sound.position {text : String} {p : Place} (h : p.Sound text) :
    ∃ position, Position.at? text.toList p.offset = some position ∧ position.offset = p.offset := by
  obtain ⟨⟨passed, rest⟩, hcut, -⟩ := Option.map_eq_some_iff.mp h.cut
  have hle : p.offset ≤ byteLength text.toList := by
    rw [← utf8ByteSize_ofList, String.ofList_toList]
    exact h.le
  rw [Position.at?, hcut]
  exact ⟨_, rfl, Nat.min_eq_left hle⟩

theorem Place.Sound.previewAt {text : String} {p : Place} (h : p.Sound text) :
    previewAt text.toList p.offset = preview p.rest := by
  obtain ⟨⟨passed, rest⟩, hcut, hrest⟩ := Option.map_eq_some_iff.mp h.cut
  rw [Packrat.previewAt, hcut, ← hrest]

/-! ## skipping -/

/-- places come to by skipping ignorable text, one stretch after the other -/
def Skips (ignorables : List Pattern) : Place → Place → Prop :=
  Relation.ReflTransGen fun p q => skipOne? ignorables p = some q

section
variable {ignorables : List Pattern}

theorem Skips.le {p q : Place} (h : Skips ignorables p q) : p ≤ q := by
  induction h with
  | refl => exact Place.le_refl p
  | tail _ hskip ih => exact Place.le_trans ih (le_skipOne? hskip)

theorem skips_skipAlong (left : List Char) (p : Place) :
    Skips ignorables p (skipAlong ignorables left p) := by
  induction left generalizing p with
  | nil => exact .refl
  | cons c left ih =>
    rw [skipAlong]
    split
    · exact .refl
    · next q hskip => exact .head hskip (ih q)

/-- a match is made after some ignorable text, and ends where the reader goes on -/
theorem lookAlong?_inv {pattern : Pattern} (left : List Char) {p q : Place} {found : Match}
    (h : lookAlong? ignorables pattern left p = some (found, q)) :
    ∃ p', Skips ignorables p p' ∧ found.span = p'.spanTo q := by
  have hmatch : ∀ p, pattern.matchAt? p = some (found, q) → found.span = p.spanTo q := by
    intro p h
    rw [Pattern.matchAt?] at h
    split at h
    · cases h
    · cases h
      rfl
  induction left generalizing p with
  | nil => exact ⟨p, .refl, hmatch p h⟩
  | cons c left ih =>
    rw [lookAlong?] at h
    split at h
    · next found' hfound =>
      cases h
      exact ⟨p, .refl, hmatch p hfound⟩
    · split at h
      · cases h
      · next r hskip =>
        obtain ⟨p', hskips, hspan⟩ := ih h
        exact ⟨p', .head hskip hskips, hspan⟩

end

section
variable {τ : Type}

/-! ## the places that a machine keeps -/

/-- the places that a frame keeps -/
def Frame.marks : Frame τ → List Place
  | .sequence _ _ start _ => [start]
  | .alternative _ _ start => [start]
  | .repetition _ _ _ _ start before _ => [start, before]
  | .optional => []
  | .rule _ start => [start]

/-- every place that the frame keeps has `P` -/
def Frame.All (P : Place → Prop) (frame : Frame τ) : Prop := ∀ q ∈ frame.marks, P q

def Move.All (P : Place → Prop) : Move τ → Prop
  | .answer _ => True
  | .wait frame _ => frame.All P

/-- the place of the reader has `P`, and so has the end of every attempt that is remembered -/
structure Ledger.All (P : Place → Prop) (l : Ledger τ) : Prop where
  here : P l.reader.place
  memo : ∀ {key result stop}, l.known? key = some (.done result stop) → P stop

structure Stage.All (P : Place → Prop) (s : Stage τ) : Prop where
  ledger : s.ledger.All P
  frames : ∀ frame ∈ s.frames, frame.All P

/-- every place that the machine keeps has `P` -/
structure Machine.All (P : Place → Prop) (m : Machine τ) : Prop where
  ledger : m.ledger.All P
  frames : ∀ frame ∈ m.frames.items, frame.All P

namespace Ledger
variable {g : Graph τ} {ignorables : List Pattern} {P : Place → Prop} {l : Ledger τ}

/-- every place that is kept after the move has `P` -/
structure AllAfter (P : Place → Prop) (x : Move τ × Ledger τ) : Prop where
  move : x.1.All P
  ledger : x.2.All P

theorem All.moveTo (h : l.All P) {q : Place} (hq : P q) : (l.moveTo q).All P := ⟨hq, h.memo⟩

theorem All.begun (h : l.All P) (rule : Nat) : (l.begun rule).All P := by
  refine ⟨?_, fun {key result stop} hkey => ?_⟩
  · rw [begun_reader]
    exact h.here
  · by_cases hne : key = l.key rule
    · have hmemo : l.memo.isSome = true := begun_memo_isSome l rule ▸ isSome_of_known? hkey
      rw [hne, known?_begun_self hmemo] at hkey
      cases hkey
    · rw [known?_begun_of_ne hne] at hkey
      exact h.memo hkey

theorem All.closed (h : l.All P) (rule : Nat) (start : Place) (result : Option (Fragment τ)) :
    (l.closed rule start result).All P := by
  refine ⟨h.here, fun {key result' stop} hkey => ?_⟩
  by_cases hne : key = ⟨start.offset, rule⟩
  · have hmemo := isSome_of_closed hkey
    rw [hne, known?_closed_self hmemo] at hkey
    cases hkey
    exact h.here
  · rw [known?_closed_of_ne hne] at hkey
    exact h.memo hkey

theorem All.enter (h : l.All P) (rule : Nat) : AllAfter P (l.enter g rule) := by
  cases hroot : g.root? rule with
  | none =>
    rw [enter_undefined hroot]
    exact ⟨trivial, h⟩
  | some root =>
    cases hentry : l.known? (l.key rule) with
    | none =>
      rw [enter_absent hroot hentry]
      refine ⟨fun q hq => ?_, h.begun rule⟩
      rw [List.mem_singleton.mp hq]
      exact h.here
    | some entry =>
      cases entry with
      | inProgress =>
        rw [enter_inProgress hroot hentry]
        exact ⟨trivial, h.here, h.memo⟩
      | done result stop =>
        rw [enter_done hroot hentry]
        exact ⟨trivial, h.memo hentry, h.memo⟩

/-- a parser that is started brings in the end of what it reads, and no other place -/
theorem All.start (h : l.All P) {node : Nat}
    (hread : ∀ found r, l.reads? g ignorables node = some (found, r) → P r.place) :
    AllAfter P (l.start g ignorables node) := by
  have hhere : ∀ q ∈ [l.reader.place], P q := fun q hq => List.mem_singleton.mp hq ▸ h.here
  rw [Ledger.reads?] at hread
  rw [Ledger.start]
  cases hnode : g.nodes[node]? with
  | none => exact ⟨trivial, h⟩
  | some found =>
    rw [hnode] at hread
    cases found with
    | sequence parts shape =>
      cases parts with
      | nil => exact ⟨trivial, h⟩
      | cons part parts => exact ⟨hhere, h⟩
    | alternative choices shape =>
      cases choices with
      | nil => exact ⟨trivial, h⟩
      | cons choice choices => exact ⟨hhere, h⟩
    | repetition inner bound shape =>
      refine ⟨fun q hq => ?_, h⟩
      have hq' : q = l.reader.place := by simpa [Frame.marks] using hq
      exact hq' ▸ h.here
    | optional inner =>
      refine ⟨fun q hq => ?_, h⟩
      cases hq
    | leaf source pattern role =>
      cases pattern with
      | none => exact ⟨trivial, h⟩
      | some pattern =>
        show AllAfter P (l.readLeaf ignorables pattern role)
        rw [readLeaf]
        cases hlook : l.reader.look? ignorables pattern with
        | none => exact ⟨trivial, h.here, h.memo⟩
        | some found => exact ⟨trivial, hread found.1 found.2 hlook, h.memo⟩
    | reference name rule =>
      cases rule with
      | none => exact ⟨trivial, h.here, h.memo⟩
      | some rule => exact h.enter rule

theorem All.endRepetition (h : l.All P) {start : Place} (hstart : P start) (bound : Bound)
    (shape : Shape τ) (count : Nat) (collected : List (Tree τ)) :
    AllAfter P (l.endRepetition bound shape count start collected) := by
  rw [Ledger.endRepetition]
  split
  · exact ⟨trivial, h.moveTo hstart⟩
  · exact ⟨trivial, h⟩

/-- a frame that is resumed brings in no place -/
theorem All.resume (h : l.All P) {frame : Frame τ} (hframe : frame.All P)
    (part : Option (Fragment τ)) : AllAfter P (l.resume frame part) := by
  cases frame with
  | sequence todo shape start collected =>
    have hstart : P start := hframe start (List.mem_singleton.mpr rfl)
    cases part with
    | none => cases todo <;> exact ⟨trivial, h.moveTo hstart⟩
    | some found =>
      cases todo with
      | nil => exact ⟨trivial, h⟩
      | cons part parts => exact ⟨hframe, h⟩
  | alternative todo shape start =>
    have hstart : P start := hframe start (List.mem_singleton.mpr rfl)
    cases part with
    | none =>
      cases todo with
      | nil => exact ⟨trivial, h.moveTo hstart⟩
      | cons choice choices => exact ⟨hframe, h.moveTo hstart⟩
    | some found => cases todo <;> exact ⟨trivial, h⟩
  | repetition inner bound shape count start before collected =>
    have hstart : P start := hframe start List.mem_cons_self
    cases part with
    | none => exact h.endRepetition hstart bound shape count collected
    | some found =>
      by_cases hmoved : before.offset < l.reader.offset
      · rw [resume_moved hmoved]
        refine ⟨fun q hq => ?_, h⟩
        have hq' : q = start ∨ q = l.reader.place := by simpa [Frame.marks] using hq
        rcases hq' with rfl | rfl
        · exact hstart
        · exact h.here
      · rw [resume_still (Nat.not_lt.mp hmoved)]
        have hstalled : (l.stalled before).All P := ⟨h.here, h.memo⟩
        exact hstalled.endRepetition hstart bound shape (count + 1) _
  | optional => cases part <;> exact ⟨trivial, h⟩
  | rule rule start => exact ⟨trivial, h.closed rule start part⟩

end Ledger

namespace Stage
variable {g : Graph τ} {ignorables : List Pattern} {P : Place → Prop}

theorem all_after {frames : List (Frame τ)} (hframes : ∀ frame ∈ frames, frame.All P)
    {x : Move τ × Ledger τ} (hx : Ledger.AllAfter P x) : (after frames x).All P := by
  obtain ⟨move, l⟩ := x
  cases move with
  | answer result => exact ⟨hx.ledger, hframes⟩
  | wait frame node => exact ⟨hx.ledger, List.forall_mem_cons.mpr ⟨hx.move, hframes⟩⟩

/-- **A step brings in the end of the match it makes, and no other place.** -/
theorem Step.all {s s' : Stage τ} (h : s.Step g ignorables s') (hs : s.All P)
    (hread : ∀ found r, s.reads? g ignorables = some (found, r) → P r.place) : s'.All P := by
  cases h with
  | start frames node l => exact all_after hs.frames (hs.ledger.start hread)
  | resume frame frames result l =>
    obtain ⟨hframe, hframes⟩ := List.forall_mem_cons.mp hs.frames
    exact all_after hframes (hs.ledger.resume hframe result)

/-- a match ends at or after the place where the reader was, and at its own end -/
theorem reads?_inv {s : Stage τ} {found : Match} {r : Reader}
    (h : s.reads? g ignorables = some (found, r)) :
    s.ledger.reader.place ≤ r.place ∧ found.span.stop = r.offset := by
  obtain ⟨frames, task, l⟩ := s
  cases task with
  | deliver result => cases h
  | start node =>
    change l.reads? g ignorables node = some (found, r) at h
    rw [Ledger.reads?] at h
    split at h
    · next pattern _ hnode =>
      obtain ⟨q, hlook, rfl⟩ := Reader.look?_eq_some.mp h
      obtain ⟨p', -, hspan⟩ := lookAlong?_inv _ hlook
      refine ⟨le_lookAlong? _ hlook, ?_⟩
      rw [hspan]
      rfl
    · cases h

end Stage

/-! ## the places of a session -/

/-- the largest of the ends of some matches, zero if there are none -/
def furthestOf (found : List Match) : Nat := (found.map (·.span.stop)).max?.getD 0

theorem furthestOf_cons (found : List Match) (m : Match) :
    furthestOf (m :: found) = max (furthestOf found) m.span.stop := by
  rw [furthestOf, furthestOf, List.map_cons, List.max?_cons]
  cases (found.map (·.span.stop)).max? with
  | none => exact (Nat.max_eq_right (Nat.zero_le _)).symm
  | some n => exact Nat.max_comm _ _

namespace Machine
variable {g : Graph τ} {ignorables : List Pattern} {P : Place → Prop} {p : Place} {m m' : Machine τ}
  {s : Stage τ}

theorem At.all_iff (h : m.At s) : m.All P ↔ s.All P := by
  have hledger : m.ledger = s.ledger := h.ledger
  have hframes : m.frames.items = s.frames := h.frames
  constructor
  · rintro ⟨hl, hf⟩
    exact ⟨hledger ▸ hl, hframes ▸ hf⟩
  · rintro ⟨hl, hf⟩
    exact ⟨hledger ▸ hl, hframes ▸ hf⟩

theorem Idle.all (hm : m.Idle) (h : m.ledger.All P) : m.All P := by
  refine ⟨h, fun frame hframe => ?_⟩
  rw [hm.frames] at hframe
  cases hframe

theorem All.request (h : m.All P) (hm : m.Idle) (call : Call) : (m.request g call).All P := by
  refine (at_request hm call).all_iff.mpr ?_
  have hnone : ∀ frame ∈ ([] : List (Frame τ)), frame.All P := fun _ h => nomatch h
  cases call with
  | parser node => exact ⟨h.ledger, hnone⟩
  | rule rule => exact Stage.all_after hnone (h.ledger.enter rule)

/-- what is known of the places that a machine keeps after these matches: they stand at or after `p`
and not after the furthest offset, which is that of a place and the largest end of a match -/
structure Charted (p : Place) (found : List Match) (m : Machine τ) : Prop where
  all : m.All fun q => p ≤ q ∧ q.offset ≤ m.reader.furthest
  reached : ∃ q, p ≤ q ∧ q.offset = m.reader.furthest
  furthest : m.reader.furthest = furthestOf found

theorem All.mono {Q : Place → Prop} (h : m.All P) (hPQ : ∀ q, P q → Q q) : m.All Q :=
  ⟨⟨hPQ _ h.ledger.here, fun hkey => hPQ _ (h.ledger.memo hkey)⟩,
    fun frame hframe q hq => hPQ _ (h.frames frame hframe q hq)⟩

/-- **A step keeps to the chart**, with the match it makes. -/
theorem Charted.goes {found : List Match} (h : m.Charted p found) (hm : m.At s)
    (hgoes : Goes g ignorables m m') :
    m'.Charted p (((m.reads? g ignorables).map Prod.fst).toList ++ found) := by
  obtain ⟨s', hstep, hm'⟩ := hm.goes hgoes
  have hfurthest := hstep.furthest_eq
  have hreader : m.ledger.reader = s.ledger.reader := congrArg Ledger.reader hm.ledger
  rw [← congrArg Ledger.reader hm'.ledger, ← hreader, ← hm.reads?_eq] at hfurthest
  change m'.reader.furthest = _ at hfurthest
  have hall : m'.All fun q => p ≤ q ∧ q.offset ≤ m'.reader.furthest := by
    refine hm'.all_iff.mpr (hstep.all ?_ fun found r hread => ?_)
    · have hle : m.reader.furthest ≤ m'.reader.furthest := by
        rw [hfurthest]
        split
        · exact Nat.le_refl _
        · exact Nat.le_max_left _ _
      exact hm.all_iff.mp (h.all.mono fun q hq => ⟨hq.1, Nat.le_trans hq.2 hle⟩)
    · have hforward := (Stage.reads?_inv hread).1
      rw [hm.reads?_eq, hread] at hfurthest
      refine ⟨Place.le_trans h.all.ledger.here.1 (hreader ▸ hforward), ?_⟩
      rw [hfurthest]
      exact Nat.le_max_right _ _
  cases hread : m.reads? g ignorables with
  | none =>
    rw [hread] at hfurthest
    refine ⟨hall, ?_, ?_⟩
    · rw [hfurthest]
      exact h.reached
    · rw [hfurthest]
      exact h.furthest
  | some x =>
    obtain ⟨f, r⟩ := x
    obtain ⟨hforward, hstop⟩ := Stage.reads?_inv (hm.reads?_eq.symm.trans hread)
    rw [hread] at hfurthest
    change m'.reader.furthest = max m.reader.furthest r.offset at hfurthest
    refine ⟨hall, ?_, ?_⟩
    · rcases Nat.le_total m.reader.furthest r.offset with hle | hle
      · refine ⟨r.place, Place.le_trans h.all.ledger.here.1 (hreader ▸ hforward), ?_⟩
        rw [hfurthest, Nat.max_eq_right hle]
        rfl
      · rw [hfurthest, Nat.max_eq_left hle]
        exact h.reached
    · show m'.reader.furthest = furthestOf (f :: found)
      rw [furthestOf_cons, ← h.furthest, hstop, hfurthest]

/-- a charted machine that keeps its reader and its memory and loses its frames -/
theorem Charted.idle {found : List Match} (h : m.Charted p found) (hm' : m'.Idle)
    (hledger : m'.ledger = m.ledger) : m'.Charted p found := by
  have hreader : m'.reader = m.reader := congrArg Ledger.reader hledger
  refine ⟨hm'.all ?_, ?_, ?_⟩
  · rw [hledger, hreader]
    exact h.all.ledger
  · rw [hreader]
    exact h.reached
  · rw [hreader]
    exact h.furthest

theorem Charted.request {found : List Match} (h : m.Charted p found) (hm : m.Idle) (call : Call) :
    (m.request g call).Charted p found := by
  have hfurthest := request_furthest (g := g) hm call
  refine ⟨?_, ?_, ?_⟩
  · rw [hfurthest]
    exact h.all.request hm call
  · rw [hfurthest]
    exact h.reached
  · rw [hfurthest]
    exact h.furthest

/-- **The places that a machine comes by in a session**, from the first of a text. -/
theorem Visits.charted {text : List Char} {memoize : Bool} {found : List Match}
    (h : Visits g ignorables (fresh (Reader.first text) memoize) found m) :
    m.Charted (Place.first text) found := by
  induction h with
  | first =>
    have hfirst := Place.le_refl (Place.first text)
    refine ⟨(fresh_idle _ memoize).all ⟨⟨hfirst, Nat.le_refl 0⟩, fun {key result stop} hkey => ?_⟩,
      ⟨_, hfirst, rfl⟩, rfl⟩
    rw [fresh_known?] at hkey
    cases hkey
  | request call _ hidle ih => exact ih.request hidle call
  | step hvisits hgoes ih =>
    obtain ⟨s, hm⟩ := hvisits.at_of_goes hgoes
    exact ih.goes hm hgoes
  | finish hvisits hend ih =>
    obtain ⟨-, hidle, hledger⟩ := hvisits.finished hend
    exact ih.idle hidle hledger

end Machine

/-! ## errors -/

/-- the position is that of a sound place, and what is shown is what follows there -/
def Position.Shows (text : String) (position : Position) (shown : String) : Prop :=
  ∃ p : Place, p.Sound text ∧ position.offset = p.offset ∧
    Position.at? text.toList p.offset = some position ∧ shown = preview p.rest

/-- an error that shows a position shows one of the text -/
def ParseError.Shows (text : String) : ParseError → Prop
  | .unknownRule _ => True
  | .noMatch _ furthest shown => furthest.Shows text shown
  | .trailingInput position shown => position.Shows text shown
  | .invalidGrammar _ => True

theorem Place.Sound.shows {text : String} {p : Place} (h : p.Sound text) :
    (positionOf text.toList p.offset).Shows text (Packrat.previewAt text.toList p.offset) := by
  obtain ⟨position, hposition, hoffset⟩ := h.position
  have hfound : positionOf text.toList p.offset = position := by
    rw [positionOf, hposition]
    rfl
  rw [hfound]
  exact ⟨p, h, hoffset, hposition, h.previewAt⟩

theorem Graph.resultOf_shows (g : Graph τ) (rule : Nat) {text : String} (options : Options)
    (ignorables : List Pattern) {reader : Reader} (trailing : Bool) {result : Option (Fragment τ)}
    {e : ParseError} (hreader : Place.first text.toList ≤ reader.place)
    (hfurthest : ∃ q, Place.first text.toList ≤ q ∧ q.offset = reader.furthest)
    (h : g.resultOf rule text.toList options ignorables reader trailing result = .error e) :
    e.Shows text := by
  cases result with
  | none =>
    cases h
    obtain ⟨q, hq, hoffset⟩ := hfurthest
    have hshows := (Place.sound_of_le hq).shows
    rw [hoffset] at hshows
    exact hshows
  | some found =>
    rw [resultOf] at h
    split at h
    · cases h
      have hskips : Skips ignorables reader.place (skipAll ignorables reader.place) :=
        skips_skipAlong reader.place.rest reader.place
      exact (Place.sound_of_le (Place.le_trans hreader hskips.le)).shows
    · cases h

open Machine in
/-- **No offset that a machine comes by is inside a character.**  In every state of every session,
with or without a memory, the places of the reader, of the frames and of the attempts that are
remembered stand between two characters of the text, and so do those that are come to from there by
skipping ignorable text.  None is after the furthest offset, which is the largest end of a match made
so far.  So wherever a run takes the text apart it can, and an error shows a position of the text. -/
theorem places_sound (g : Graph τ) (text : String) :
    (∀ ignorables memoize found m,
      Visits g ignorables (fresh (Reader.first text.toList) memoize) found m →
        m.All (fun p => p.Sound text ∧ p.offset ≤ m.reader.furthest ∧
          ∀ q, Skips ignorables p q → q.Sound text) ∧
        m.reader.furthest = furthestOf found ∧ m.reader.furthest ≤ text.utf8ByteSize ∧
        ∃ q : Place, q.Sound text ∧ q.offset = m.reader.furthest) ∧
    ∀ limit rule options outcome e, g.run? limit rule text options = some outcome →
      outcome.result = .error e → e.Shows text := by
  constructor
  · intro ignorables memoize found m hvisits
    have hm := hvisits.charted
    obtain ⟨q, hq, hoffset⟩ := hm.reached
    have hsound := Place.sound_of_le hq
    refine ⟨hm.all.mono fun p hp => ?_, hm.furthest, hoffset ▸ hsound.le, q, hsound, hoffset⟩
    refine ⟨Place.sound_of_le hp.1, hp.2, fun q hskips => ?_⟩
    exact Place.sound_of_le (Place.le_trans hp.1 hskips.le)
  · intro limit rule options outcome e hrun he
    rw [Graph.run?] at hrun
    dsimp only at hrun
    split at hrun
    · cases hrun
    · next result m hserve =>
      cases hrun
      have hfirst := fresh_idle (τ := τ) (Reader.first text.toList) options.memoize
      have hserve' : (fresh (Reader.first text.toList) options.memoize).serve? g
          (g.ignorablesFor options) limit (.rule rule) = some (result, m) := hserve
      obtain ⟨found, hvisits⟩ := Visits.first.serve? hfirst hserve'
      have hm := hvisits.charted
      exact g.resultOf_shows rule options _ _ hm.all.ledger.here.1 hm.reached he

end

/-! ## characters of several bytes -/

namespace Accents

/-- `a ::= "é" "!"`, and white space is ignored -/
def grammar : Grammar Unit :=
  (Grammar.empty.ignore "\\s+").declare
    (({ name := "a" } : Rule.Draft Unit).hide "é" |>.hide "!")

/-- the rule fails after the first two characters, which take three bytes -/
theorem places_sound_after_match :
    ∃ found m outcome name position shown,
      Machine.Visits grammar.compile grammar.compile.ignorables
        (.fresh (Reader.first " é?".toList) true) found m ∧
      m.reader.furthest = 3 ∧ furthestOf found = 3 ∧
      grammar.compile.run? 100 0 " é?" {} = some outcome ∧
      outcome.result = .error (.noMatch name position shown) ∧ position.offset = 3 ∧
      position.Shows " é?" shown := by
  obtain ⟨hvisited, hshown⟩ := places_sound grammar.compile " é?"
  have hserve : ((Machine.fresh (Reader.first " é?".toList) true).serve? grammar.compile
      grammar.compile.ignorables 100 (.rule 0)).map (·.2.reader.furthest) = some 3 := by
    decide +kernel
  obtain ⟨⟨result, m⟩, hm, hfurthest⟩ := Option.map_eq_some_iff.mp hserve
  obtain ⟨found, hvisits⟩ := Machine.Visits.first.serve? (Machine.fresh_idle _ true) hm
  have hfound := (hvisited _ _ _ _ hvisits).2.1
  have hrun : ((grammar.compile.run? 100 0 " é?" {}).bind fun o => match o.result with
      | .ok _ => none
      | .error e => some e) = some (.noMatch "a" ⟨3, 1, 3⟩ "?") := by
    decide +kernel
  obtain ⟨outcome, houtcome, herror⟩ := Option.bind_eq_some_iff.mp hrun
  have hresult : outcome.result = .error (.noMatch "a" ⟨3, 1, 3⟩ "?") := by
    cases hcase : outcome.result with
    | ok t =>
      rw [hcase] at herror
      cases herror
    | error e =>
      rw [hcase] at herror
      cases herror
      rfl
  exact ⟨found, m, outcome, "a", ⟨3, 1, 3⟩, "?", hvisits, hfurthest, hfound ▸ hfurthest, houtcome,
    hresult, rfl, hshown _ _ _ _ _ houtcome hresult⟩

end Accents

end Packrat
