import Mathlib.Data.List.Perm.Subperm
import Packrat.Proofs.Boundary
import Packrat.Proofs.Free
import Packrat.Proofs.Renumbering
import Packrat.Proofs.Termination

/-!
# The life of an entry in the memory

An attempt is written down twice, when it begins and when it ends, and anything may be parsed in
between.  The frames tell which attempts are between the two.

* `Memo.Ages`            what one step may do to an entry;
* `Ledger.Aside`         a move that does not concern the memory;
* `Ledger.Books`         the memory holds an entry for each attempt that has begun, and those of the
                         attempts that wait are in progress;
* `Ledger.Books.start`, `Ledger.Books.resume`   every move keeps the books, and lets entries age;
* `Ledger.Books.misses_le`   the attempts are limited by the text and the rules;
* `Machine.Next`         what happens to a machine next;
* `Machine.Visits.books`   the books are kept in every state of a session;
* `entries_age`          what follows for the entries and the counters.
-/

namespace Packrat

section
variable {τ : Type}

/-- an entry stays, or an attempt begins of which nothing was known, or one in progress ends -/
inductive Memo.Ages : Option (Memo.Entry τ) → Option (Memo.Entry τ) → Prop
  | stays (entry : Option (Memo.Entry τ)) : Ages entry entry
  | begins : Ages none (some .inProgress)
  | ends (result : Option (Fragment τ)) (stop : Place) :
      Ages (some .inProgress) (some (.done result stop))

/-- what is done with stays -/
theorem Memo.Ages.done {entry : Option (Memo.Entry τ)} {result : Option (Fragment τ)} {stop : Place}
    (h : Memo.Ages (some (.done result stop)) entry) : entry = some (.done result stop) := by
  cases h
  rfl

theorem Graph.length_attempts (g : Graph τ) (limit : Nat) :
    (g.attempts limit).length = (limit + 1) * g.rules.size := by
  simp [Graph.attempts, List.length_flatMap]

/-! ## moves that do not concern the memory -/

/-- how often the memory was asked: with an answer, without one, for what was under way -/
def Tally.recalls (t : Tally) : Nat × Nat × Nat := (t.memoHits, t.memoMisses, t.recursionCuts)

/-- a move that leaves the memory and its counts alone and begins no attempt -/
structure Ledger.Aside (l : Ledger τ) (x : Move τ × Ledger τ) : Prop where
  memo : x.2.memo = l.memo
  recalls : x.2.tally.recalls = l.tally.recalls
  plain : x.1.Plain fun _ => True

theorem Frame.plain_of {frame : Frame τ} (h : frame.attempt? = none) : frame.Plain fun _ => True :=
  ⟨h, fun _ _ => trivial⟩

/-- the attempt that begins with the move -/
def Move.opens : Move τ → List Memo.Key
  | .answer _ => []
  | .wait frame _ => frame.attempt?.toList

theorem Ledger.Aside.opens {l : Ledger τ} {x : Move τ × Ledger τ} (h : Aside l x) :
    x.1.opens = [] := by
  obtain ⟨move, l'⟩ := x
  cases move with
  | answer result => rfl
  | wait frame node =>
    show frame.attempt?.toList = []
    rw [h.plain.attempt]
    rfl

namespace Ledger
variable {g : Graph τ} {ignorables : List Pattern}

theorem start_aside (g : Graph τ) (ignorables : List Pattern) (l : Ledger τ) (node : Nat) :
    (∃ rule, l.start g ignorables node = l.enter g rule) ∨ Aside l (l.start g ignorables node) := by
  rw [start]
  cases g.nodes[node]? with
  | none => exact .inr ⟨rfl, rfl, trivial⟩
  | some found =>
    cases found with
    | sequence parts shape =>
      cases parts with
      | nil => exact .inr ⟨rfl, rfl, trivial⟩
      | cons part parts => exact .inr ⟨rfl, rfl, Frame.plain_of rfl⟩
    | alternative choices shape =>
      cases choices with
      | nil => exact .inr ⟨rfl, rfl, trivial⟩
      | cons choice choices => exact .inr ⟨rfl, rfl, Frame.plain_of rfl⟩
    | repetition inner bound shape => exact .inr ⟨rfl, rfl, Frame.plain_of rfl⟩
    | optional inner => exact .inr ⟨rfl, rfl, Frame.plain_of rfl⟩
    | leaf source pattern role =>
      cases pattern with
      | none => exact .inr ⟨rfl, rfl, trivial⟩
      | some pattern =>
        right
        show Aside l (l.readLeaf ignorables pattern role)
        rw [readLeaf]
        cases l.reader.look? ignorables pattern <;> exact ⟨rfl, rfl, trivial⟩
    | reference name rule =>
      cases rule with
      | none => exact .inr ⟨rfl, rfl, trivial⟩
      | some rule => exact .inl ⟨rule, rfl⟩

theorem endRepetition_aside (l : Ledger τ) (bound : Bound) (shape : Shape τ) (count : Nat)
    (start : Place) (collected : List (Tree τ)) :
    Aside l (l.endRepetition bound shape count start collected) := by
  rw [endRepetition]
  split <;> exact ⟨rfl, rfl, trivial⟩

theorem resume_aside (l : Ledger τ) {frame : Frame τ} (h : frame.attempt? = none)
    (part : Option (Fragment τ)) : Aside l (l.resume frame part) := by
  cases frame with
  | sequence todo shape start collected =>
    cases part with
    | none => cases todo <;> exact ⟨rfl, rfl, trivial⟩
    | some found =>
      cases todo with
      | nil => exact ⟨rfl, rfl, trivial⟩
      | cons next todo => exact ⟨rfl, rfl, Frame.plain_of rfl⟩
  | alternative todo shape start =>
    cases part with
    | none =>
      cases todo with
      | nil => exact ⟨rfl, rfl, trivial⟩
      | cons next todo => exact ⟨rfl, rfl, Frame.plain_of rfl⟩
    | some found => cases todo <;> exact ⟨rfl, rfl, trivial⟩
  | repetition inner bound shape count start before collected =>
    cases part with
    | none => exact l.endRepetition_aside bound shape count start collected
    | some found =>
      by_cases hmoved : before.offset < l.reader.offset
      · rw [resume_moved hmoved]
        exact ⟨rfl, rfl, Frame.plain_of rfl⟩
      · rw [resume_still (Nat.not_lt.mp hmoved)]
        have hend := (l.stalled before).endRepetition_aside bound shape (count + 1) start
          (found.collected.reverse ++ collected)
        exact ⟨hend.memo, hend.recalls, hend.plain⟩
  | optional => cases part <;> exact ⟨rfl, rfl, trivial⟩
  | rule rule start => cases h

/-! ## the books -/

/-- the memory holds as many entries as attempts have begun, all at rules of the graph and up to the
offset `limit`; those in progress are the ones that wait, each once -/
structure Books (g : Graph τ) (limit : Nat) (waiting : List Memo.Key) (l : Ledger τ) : Prop where
  size : l.memo.map Std.TreeMap.size = some l.tally.memoMisses
  inProgress : ∀ {key}, l.known? key = some .inProgress ↔ key ∈ waiting
  nodup : waiting.Nodup
  known : ∀ {key entry}, l.known? key = some entry → key ∈ g.attempts limit

/-- the books are kept by the later ledger, and the entries have aged by a step -/
structure Grows (g : Graph τ) (limit : Nat) (waiting : List Memo.Key) (l l' : Ledger τ) : Prop where
  books : l'.Books g limit waiting
  ages : ∀ key, Memo.Ages (l.known? key) (l'.known? key)

variable {limit : Nat} {waiting : List Memo.Key} {l l' : Ledger τ}

theorem Books.isSome (h : l.Books g limit waiting) : l.memo.isSome = true := by
  have hsize := h.size
  cases hmemo : l.memo with
  | none =>
    rw [hmemo] at hsize
    cases hsize
  | some memo => rfl

/-- a move that leaves the memory and the count of attempts alone -/
theorem Books.same (h : l.Books g limit waiting) (hmemo : l'.memo = l.memo)
    (hmisses : l'.tally.memoMisses = l.tally.memoMisses) : Grows g limit waiting l l' := by
  have hknown : l'.known? = l.known? := by
    funext key
    rw [known?, known?, hmemo]
  refine ⟨⟨by rw [hmemo, hmisses]; exact h.size, ?_, h.nodup, ?_⟩, fun key => ?_⟩
  · rw [hknown]
    exact h.inProgress
  · rw [hknown]
    exact h.known
  · rw [hknown]
    exact .stays _

theorem Aside.grows {x : Move τ × Ledger τ} (hx : Aside l x) (h : l.Books g limit waiting) :
    Grows g limit (x.1.opens ++ waiting) l x.2 := by
  rw [hx.opens]
  exact h.same hx.memo (congrArg (·.2.1) hx.recalls)

/-- an attempt begins of which nothing was known -/
theorem Books.begun (h : l.Books g limit waiting) {rule root : Nat}
    (hroot : g.root? rule = some root) (habsent : l.known? (l.key rule) = none)
    (hhere : l.reader.offset ≤ limit) :
    Grows g limit (l.key rule :: waiting) l (l.begun rule) := by
  have hmemo := h.isSome
  have hsize : (l.begun rule).memo.map Std.TreeMap.size =
      some (l.begun rule).tally.memoMisses := by
    obtain ⟨memo, hsome⟩ := Option.isSome_iff_exists.mp hmemo
    have hinsert := Like.size_remember l (l.key rule) .inProgress
    rw [h.size, habsent] at hinsert
    rw [Ledger.begun, hsome]
    exact hinsert
  have hfresh : l.key rule ∉ waiting := by
    intro hmem
    rw [← h.inProgress, habsent] at hmem
    cases hmem
  refine ⟨⟨hsize, fun {key} => ?_, List.nodup_cons.mpr ⟨hfresh, h.nodup⟩,
    fun {key entry} hkey => ?_⟩, fun key => ?_⟩
  · rw [List.mem_cons]
    by_cases hne : key = l.key rule
    · rw [hne, known?_begun_self hmemo]
      exact ⟨fun _ => .inl rfl, fun _ => rfl⟩
    · rw [known?_begun_of_ne hne, h.inProgress]
      exact ⟨.inr, fun hmem => hmem.resolve_left hne⟩
  · by_cases hne : key = l.key rule
    · rw [hne]
      exact Graph.mem_attempts hhere hroot
    · rw [known?_begun_of_ne hne] at hkey
      exact h.known hkey
  · by_cases hne : key = l.key rule
    · rw [hne, known?_begun_self hmemo, habsent]
      exact .begins
    · rw [known?_begun_of_ne hne]
      exact .stays _

/-- the attempt that waits innermost ends -/
theorem Books.closed {rule : Nat} {start : Place}
    (h : l.Books g limit (⟨start.offset, rule⟩ :: waiting)) (result : Option (Fragment τ)) :
    Grows g limit waiting l (l.closed rule start result) := by
  have hmemo := h.isSome
  have hentry : l.known? ⟨start.offset, rule⟩ = some .inProgress :=
    h.inProgress.mpr List.mem_cons_self
  obtain ⟨hkey, hnodup⟩ := List.nodup_cons.mp h.nodup
  have hsize : (l.closed rule start result).memo.map Std.TreeMap.size =
      some l.tally.memoMisses := by
    have hinsert := Like.size_remember l ⟨start.offset, rule⟩ (.done result l.reader.place)
    rw [h.size, hentry] at hinsert
    exact hinsert
  refine ⟨⟨hsize, fun {key} => ?_, hnodup, fun {key entry} hknown => ?_⟩, fun key => ?_⟩
  · by_cases hne : key = ⟨start.offset, rule⟩
    · rw [hne, known?_closed_self hmemo]
      exact ⟨nofun, fun hmem => absurd hmem hkey⟩
    · rw [known?_closed_of_ne hne, h.inProgress, List.mem_cons]
      exact ⟨fun hmem => hmem.resolve_left hne, .inr⟩
  · by_cases hne : key = ⟨start.offset, rule⟩
    · rw [hne]
      exact h.known hentry
    · rw [known?_closed_of_ne hne] at hknown
      exact h.known hknown
  · by_cases hne : key = ⟨start.offset, rule⟩
    · rw [hne, known?_closed_self hmemo, hentry]
      exact .ends result l.reader.place
    · rw [known?_closed_of_ne hne]
      exact .stays _

theorem Books.enter (h : l.Books g limit waiting) (hhere : l.reader.offset ≤ limit) (rule : Nat) :
    Grows g limit ((l.enter g rule).1.opens ++ waiting) l (l.enter g rule).2 := by
  cases hroot : g.root? rule with
  | none =>
    rw [enter_undefined hroot]
    exact h.same rfl rfl
  | some root =>
    cases hentry : l.known? (l.key rule) with
    | none =>
      rw [enter_absent hroot hentry]
      exact h.begun hroot hentry hhere
    | some entry =>
      cases entry with
      | inProgress =>
        rw [enter_inProgress hroot hentry]
        exact h.same rfl rfl
      | done result stop =>
        rw [enter_done hroot hentry]
        exact h.same rfl rfl

/-- **A parser that is started keeps the books.** -/
theorem Books.start (h : l.Books g limit waiting) (hhere : l.reader.offset ≤ limit) (node : Nat) :
    Grows g limit ((l.start g ignorables node).1.opens ++ waiting) l
      (l.start g ignorables node).2 := by
  rcases l.start_aside g ignorables node with ⟨rule, hrule⟩ | haside
  · rw [hrule]
    exact h.enter hhere rule
  · exact haside.grows h

/-- **A frame that is resumed keeps the books.** -/
theorem Books.resume {frame : Frame τ} (h : l.Books g limit (frame.attempt?.toList ++ waiting))
    (part : Option (Fragment τ)) :
    Grows g limit ((l.resume frame part).1.opens ++ waiting) l (l.resume frame part).2 := by
  rcases frame.rule_or_plain with ⟨rule, start, rfl⟩ | hplain
  · exact h.closed part
  · rw [hplain.attempt] at h
    exact (l.resume_aside hplain.attempt part).grows h

/-- **No more attempts begin than there are offsets and rules.** -/
theorem Books.misses_le (h : l.Books g limit waiting) :
    l.tally.memoMisses ≤ (limit + 1) * g.rules.size := by
  obtain ⟨memo, hmemo, hsize⟩ := Option.map_eq_some_iff.mp h.size
  have hsubset : memo.keys ⊆ g.attempts limit := by
    intro key hkey
    rw [Std.TreeMap.mem_keys, Std.TreeMap.mem_iff_isSome_getElem?] at hkey
    obtain ⟨entry, hentry⟩ := Option.isSome_iff_exists.mp hkey
    have hknown : l.known? key = some entry := by
      rw [known?, hmemo]
      exact hentry
    exact h.known hknown
  have hlength := (List.subperm_of_subset Std.TreeMap.nodup_keys hsubset).length_le
  rw [Std.TreeMap.length_keys, hsize, Graph.length_attempts] at hlength
  exact hlength

/-! ## without a memory -/

/-- there is no memory, and it was never asked -/
structure Blank (l : Ledger τ) : Prop where
  memo : l.memo = none
  recalls : l.tally.recalls = (0, 0, 0)

theorem Aside.blank {x : Move τ × Ledger τ} (hx : Aside l x) (h : l.Blank) : x.2.Blank :=
  ⟨hx.memo.trans h.memo, hx.recalls.trans h.recalls⟩

theorem Blank.enter (h : l.Blank) (rule : Nat) : (l.enter g rule).2.Blank := by
  cases hroot : g.root? rule with
  | none =>
    rw [enter_undefined hroot]
    exact h
  | some root =>
    have hbegun : (l.begun rule).tally = l.tally := by rw [begun, h.memo]; rfl
    rw [enter_absent hroot (known?_eq_none h.memo _)]
    exact ⟨begun_memo_none h.memo rule, hbegun ▸ h.recalls⟩

theorem Blank.start (h : l.Blank) (node : Nat) : (l.start g ignorables node).2.Blank := by
  rcases l.start_aside g ignorables node with ⟨rule, hrule⟩ | haside
  · rw [hrule]
    exact h.enter rule
  · exact haside.blank h

theorem Blank.resume (h : l.Blank) (frame : Frame τ) (part : Option (Fragment τ)) :
    (l.resume frame part).2.Blank := by
  rcases frame.rule_or_plain with ⟨rule, start, rfl⟩ | hplain
  · exact ⟨closed_memo_none h.memo rule start part, h.recalls⟩
  · exact (l.resume_aside hplain.attempt part).blank h

end Ledger

/-! ## machines -/

namespace Stage
variable {g : Graph τ} {ignorables : List Pattern} {s s' : Stage τ}

/-- the attempts of the frames that wait, the innermost first -/
def attempts (s : Stage τ) : List Memo.Key := s.frames.filterMap Frame.attempt?

theorem attempts_cons (frame : Frame τ) (frames : List (Frame τ)) (task : Task τ) (l : Ledger τ) :
    (⟨frame :: frames, task, l⟩ : Stage τ).attempts =
      frame.attempt?.toList ++ frames.filterMap Frame.attempt? := by
  rw [attempts, List.filterMap_cons]
  cases frame.attempt? <;> rfl

theorem attempts_after (frames : List (Frame τ)) (x : Move τ × Ledger τ) :
    (after frames x).attempts = x.1.opens ++ frames.filterMap Frame.attempt? := by
  obtain ⟨move, l⟩ := x
  cases move with
  | answer result => rfl
  | wait frame node => exact attempts_cons frame frames (.start node) l

/-- **A step keeps the books**, by the frames that wait before and after it. -/
theorem Step.grows {limit : Nat} (h : s.Step g ignorables s')
    (hbooks : s.ledger.Books g limit s.attempts) (hhere : s.ledger.reader.offset ≤ limit) :
    s.ledger.Grows g limit s'.attempts s'.ledger := by
  cases h with
  | start frames node l =>
    rw [attempts_after, after_ledger]
    exact hbooks.start hhere node
  | resume frame frames result l =>
    rw [attempts_cons] at hbooks
    rw [attempts_after, after_ledger]
    exact hbooks.resume result

theorem Step.blank (h : s.Step g ignorables s') (hs : s.ledger.Blank) : s'.ledger.Blank := by
  cases h with
  | start frames node l =>
    rw [after_ledger]
    exact hs.start node
  | resume frame frames result l =>
    rw [after_ledger]
    exact hs.resume frame result

end Stage

namespace Machine
variable {g : Graph τ} {ignorables : List Pattern} {m m' : Machine τ} {s s' : Stage τ}

variable (g ignorables) in
/-- what happens to a machine next: it takes up a request, makes a step, or is done with one -/
inductive Next : Machine τ → Machine τ → Prop
  | request {m : Machine τ} (call : Call) : m.Idle → Next m (m.request g call)
  | step {m m' : Machine τ} : Goes g ignorables m m' → Next m m'
  | finish {m m' : Machine τ} : m.observe.advance g ignorables = .finished m' →
      Next m m'.takeResult.2

/-- the attempts of the frames that wait, the innermost first -/
def attempts (m : Machine τ) : List Memo.Key := m.frames.items.filterMap Frame.attempt?

theorem attempts_of_empty (h : m.frames = .empty) : m.attempts = [] := by
  rw [attempts, h]
  rfl

theorem Idle.attempts (h : m.Idle) : m.attempts = [] := attempts_of_empty h.frames

theorem At.attempts (h : m.At s) : m.attempts = s.attempts := by
  rw [Machine.attempts, h.frames, Stage.attempts]

theorem Visits.next {m₀ : Machine τ} {found : List Match} (h : Visits g ignorables m₀ found m)
    (hnext : Next g ignorables m m') : ∃ found', Visits g ignorables m₀ found' m' := by
  cases hnext with
  | request call hidle => exact ⟨_, h.request call hidle⟩
  | step hgoes => exact ⟨_, h.step hgoes⟩
  | finish hend => exact ⟨_, h.finish hend⟩

/-- **Whatever happens next, the books are kept and the entries age.** -/
theorem Next.grows {reader : Reader} {found : List Match} (hnext : Next g ignorables m m')
    (hvisits : Visits g ignorables (fresh reader true) found m)
    (h : m.ledger.Books g reader.place.limit m.attempts) :
    m.ledger.Grows g reader.place.limit m'.attempts m'.ledger := by
  have hhere : m.ledger.reader.offset ≤ reader.place.limit :=
    Place.offset_le_limit hvisits.ledger_lawful.here
  cases hnext with
  | request call hidle =>
    have hat := at_request (g := g) hidle call
    rw [hidle.attempts] at h
    rw [hat.attempts, hat.ledger]
    cases call with
    | parser node => exact h.same rfl rfl
    | rule rule =>
      rw [Stage.request, Stage.attempts_after, Stage.after_ledger]
      exact h.enter hhere rule
  | step hgoes =>
    obtain ⟨s, hat⟩ := hvisits.at_of_goes hgoes
    obtain ⟨s', hstep, hat'⟩ := hat.goes hgoes
    rw [hat.attempts, hat.ledger] at h
    rw [hat.ledger] at hhere
    rw [hat'.attempts, hat.ledger, hat'.ledger]
    exact hstep.grows h hhere
  | finish hend =>
    obtain ⟨hframes, hidle, hledger⟩ := hvisits.finished hend
    rw [attempts_of_empty hframes] at h
    rw [hidle.attempts, hledger]
    exact h.same rfl rfl

theorem fresh_books (g : Graph τ) (limit : Nat) (reader : Reader) :
    (fresh reader true : Machine τ).ledger.Books g limit [] := by
  refine ⟨congrArg some Std.TreeMap.size_emptyc, fun {key} => ?_, List.nodup_nil,
    fun {key entry} hkey => ?_⟩
  · rw [fresh_known?]
    exact ⟨nofun, nofun⟩
  · rw [fresh_known?] at hkey
    cases hkey

/-- **The books are kept in every state of a session.** -/
theorem Visits.books {reader : Reader} {found : List Match}
    (h : Visits g ignorables (fresh reader true) found m) :
    m.ledger.Books g reader.place.limit m.attempts := by
  induction h with
  | first => exact fresh_books g _ reader
  | request call hvisits hidle ih => exact ((Next.request call hidle).grows hvisits ih).books
  | step hvisits hgoes ih => exact ((Next.step hgoes).grows hvisits ih).books
  | finish hvisits hend ih => exact ((Next.finish hend).grows hvisits ih).books

theorem Visits.blank {reader : Reader} {found : List Match}
    (h : Visits g ignorables (fresh reader false) found m) : m.ledger.Blank := by
  induction h with
  | first => exact ⟨rfl, rfl⟩
  | @request found m call hvisits hidle ih =>
    have hat := at_request (g := g) hidle call
    rw [hat.ledger]
    cases call with
    | parser node => exact ih
    | rule rule =>
      rw [Stage.request, Stage.after_ledger]
      exact ih.enter rule
  | @step found m m' hvisits hgoes ih =>
    obtain ⟨s, hat⟩ := hvisits.at_of_goes hgoes
    obtain ⟨s', hstep, hat'⟩ := hat.goes hgoes
    rw [hat.ledger] at ih
    rw [hat'.ledger]
    exact hstep.blank ih
  | finish hvisits hend ih =>
    obtain ⟨-, -, hledger⟩ := hvisits.finished hend
    rw [hledger]
    exact ih

/-- what is remembered of an attempt that is done is never changed -/
theorem Visits.done_stays {reader : Reader} {found : List Match}
    (h : Visits g ignorables (fresh reader true) found m) {key : Memo.Key}
    {result : Option (Fragment τ)} {stop : Place}
    (hdone : m.ledger.known? key = some (.done result stop))
    (hlater : Relation.ReflTransGen (Next g ignorables) m m') :
    m'.ledger.known? key = some (.done result stop) := by
  have hall : (∃ found', Visits g ignorables (fresh reader true) found' m') ∧
      m'.ledger.known? key = some (.done result stop) := by
    induction hlater with
    | refl => exact ⟨⟨found, h⟩, hdone⟩
    | tail _ hnext ih =>
      obtain ⟨⟨found₁, h₁⟩, hdone₁⟩ := ih
      have hages := (hnext.grows h₁ h₁.books).ages key
      rw [hdone₁] at hages
      exact ⟨h₁.next hnext, hages.done⟩
  exact hall.2

end Machine

open Machine in
/-- **An attempt is begun once and done once.**  In every state of every session with a memory, the
attempts in progress are those of the frames that wait, and no two of these are the same.  An entry
comes to be in progress if there was none, is done if it was in progress, and stays after that; it
ends at or after its attempt, and there if that failed.  After each request nothing is in progress,
there are as many entries as attempts begun, and no more than offsets in the text and rules together
give.  Without a memory nothing is counted. -/
theorem entries_age (g : Graph τ) (ignorables : List Pattern) {text : String} {reader : Reader}
    (hreader : Place.first text.toList ≤ reader.place) :
    (∀ found m, Visits g ignorables (fresh reader true) found m →
      (∀ key, m.ledger.known? key = some .inProgress ↔ key ∈ m.attempts) ∧ m.attempts.Nodup ∧
      (∀ m', Next g ignorables m m' →
        ∀ key, Memo.Ages (m.ledger.known? key) (m'.ledger.known? key)) ∧
      ∀ key result stop, m.ledger.known? key = some (.done result stop) →
        key.offset ≤ stop.offset ∧ (result = none → stop.offset = key.offset) ∧
        ∀ m', Relation.ReflTransGen (Next g ignorables) m m' →
          m'.ledger.known? key = some (.done result stop)) ∧
    (∀ limit calls replies m,
      (fresh reader true).session? g ignorables limit calls = some (replies, m) →
        (∀ key, m.ledger.known? key ≠ some .inProgress) ∧
        m.totals.memoEntries = m.totals.memoMisses ∧
        m.totals.memoMisses ≤ (text.utf8ByteSize + 1) * g.rules.size) ∧
    ∀ found m, Visits g ignorables (fresh reader false) found m →
      m.totals.memoHits = 0 ∧ m.totals.memoMisses = 0 ∧ m.totals.memoEntries = 0 ∧
        m.totals.recursionCuts = 0 := by
  refine ⟨fun found m hvisits => ?_, fun limit calls replies m hsession => ?_,
    fun found m hvisits => ?_⟩
  · have hbooks := hvisits.books
    refine ⟨fun key => hbooks.inProgress, hbooks.nodup,
      fun m' hnext => (hnext.grows hvisits hbooks).ages, fun key result stop hdone => ?_⟩
    obtain ⟨start, -, hoffset, hlands⟩ := hvisits.ledger_lawful.memo hdone
    rw [← hoffset]
    refine ⟨Place.offset_le hlands.le, fun hnone => ?_, fun m' => hvisits.done_stays hdone⟩
    subst hnone
    exact congrArg Place.offset hlands
  · have hidle := (serves_of_session? (fresh_idle reader true) hsession).1
    obtain ⟨found, hvisits⟩ := Visits.first.session? (fresh_idle reader true) hsession
    have hbooks := hvisits.books
    have hle := hbooks.misses_le
    rw [Place.limit_of_le hreader] at hle
    refine ⟨fun key hkey => ?_, ?_, hle⟩
    · rw [hbooks.inProgress, hidle.attempts] at hkey
      cases hkey
    · rw [m.totals_eq]
      exact congrArg (Option.getD · 0) hbooks.size
  · have hblank := hvisits.blank
    have hentries : m.totals.memoEntries = 0 := by
      rw [m.totals_eq, hblank.memo]
      rfl
    obtain ⟨hhits, hrest⟩ := Prod.mk.inj hblank.recalls
    obtain ⟨hmisses, hcuts⟩ := Prod.mk.inj hrest
    exact ⟨hhits, hmisses, hentries, hcuts⟩

end

namespace Growing

/-- a rule that begins with itself, asked for twice in a row: it is cut off at both places -/
theorem entries_age_after_match :
    ∃ replies m, machine.session? grammar.compile [] 100 [.rule 0, .rule 0] = some (replies, m) ∧
      m.counters.recursionCuts = 2 ∧ (∀ key, m.ledger.known? key ≠ some .inProgress) ∧
      m.totals.memoEntries = m.totals.memoMisses ∧ m.totals.memoMisses ≤ 4 := by
  have hview : (machine.session? grammar.compile [] 100 [.rule 0, .rule 0]).map (fun x =>
      x.2.counters.recursionCuts) = some 2 := by
    decide +kernel
  obtain ⟨⟨replies, m⟩, hm, hcuts⟩ := Option.map_eq_some_iff.mp hview
  have hreader : Place.first "yxz".toList ≤ (Reader.first "yxz".toList).place := Place.le_refl _
  have h := entries_age grammar.compile [] hreader
  obtain ⟨hnone, hentries, hle⟩ := h.2.1 100 _ _ _ hm
  exact ⟨replies, m, hm, hcuts, hnone, hentries, hle⟩

end Growing

end Packrat
