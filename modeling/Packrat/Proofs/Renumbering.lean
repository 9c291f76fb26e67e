import Mathlib.Data.List.Forall2
import Packrat.Parse
import Packrat.Proofs.Memory

/-!
# The same parsers under other numbers

Two graphs may number the same parsers and rules differently.  Runs with them go in lockstep, and
nothing but the numbers tells them apart.

* `Node.Like N R`, `Frame.Like N R`, `Move.Like N R`   the same but for numbers: those of parsers are
                        related by `N`, those of rules by `R`;
* `Graph.Twins N R`     related numbers stand for the same in both graphs;
* `Ledger.Like R`       the same has been read and counted, and the same is remembered of the rules;
* `Graph.Twins.start`, `Graph.Twins.resume`   the moves of twins are the same but for numbers;
* `Machine.Like N R`    so are the machines, stacks and counters included;
* `Graph.Twins.run?`    so a text comes to the same, whatever the limit.
-/

namespace Packrat

section
variable {τ : Type}

/-! ## numbers -/

/-- parsers that are the same but for the numbers of their parts and rules -/
inductive Node.Like (N R : Nat → Nat → Prop) : Node τ → Node τ → Prop
  | sequence {parts parts' : List Nat} (shape : Shape τ) : List.Forall₂ N parts parts' →
      Like N R (.sequence parts shape) (.sequence parts' shape)
  | alternative {choices choices' : List Nat} (shape : Shape τ) : List.Forall₂ N choices choices' →
      Like N R (.alternative choices shape) (.alternative choices' shape)
  | repetition {inner inner' : Nat} (bound : Bound) (shape : Shape τ) : N inner inner' →
      Like N R (.repetition inner bound shape) (.repetition inner' bound shape)
  | optional {inner inner' : Nat} : N inner inner' → Like N R (.optional inner) (.optional inner')
  | leaf (source : String) (pattern : Option Pattern) (role : Role τ) :
      Like N R (.leaf source pattern role) (.leaf source pattern role)
  | reference (name : String) {rule rule' : Nat} : R rule rule' →
      Like N R (.reference name (some rule)) (.reference name (some rule'))
  | undefined (name : String) : Like N R (.reference name none) (.reference name none)

/-- parsers that wait for parts with related numbers -/
inductive Frame.Like (N R : Nat → Nat → Prop) : Frame τ → Frame τ → Prop
  | sequence {todo todo' : List Nat} (shape : Shape τ) (start : Place) (collected : List (Tree τ)) :
      List.Forall₂ N todo todo' →
      Like N R (.sequence todo shape start collected) (.sequence todo' shape start collected)
  | alternative {todo todo' : List Nat} (shape : Shape τ) (start : Place) :
      List.Forall₂ N todo todo' →
      Like N R (.alternative todo shape start) (.alternative todo' shape start)
  | repetition {inner inner' : Nat} (bound : Bound) (shape : Shape τ) (count : Nat)
      (start before : Place) (collected : List (Tree τ)) : N inner inner' →
      Like N R (.repetition inner bound shape count start before collected)
        (.repetition inner' bound shape count start before collected)
  | optional : Like N R .optional .optional
  | rule {rule rule' : Nat} (start : Place) : R rule rule' →
      Like N R (.rule rule start) (.rule rule' start)

inductive Move.Like (N R : Nat → Nat → Prop) : Move τ → Move τ → Prop
  | answer (result : Option (Fragment τ)) : Like N R (.answer result) (.answer result)
  | wait {frame frame' : Frame τ} {node node' : Nat} : frame.Like N R frame' → N node node' →
      Like N R (.wait frame node) (.wait frame' node')

/-- related numbers stand for the same in both graphs, and no rule has two numbers -/
structure Graph.Twins (N R : Nat → Nat → Prop) (g h : Graph τ) : Prop where
  node : ∀ {i j}, N i j → ∃ a b, g.nodes[i]? = some a ∧ h.nodes[j]? = some b ∧ a.Like N R b
  root : ∀ {r s}, R r s → ∃ i j, g.root? r = some i ∧ h.root? s = some j ∧ N i j
  unique : ∀ {r r' s s'}, R r s → R r' s' → (r = r' ↔ s = s')

/-! ## ledgers -/

/-- the same has been read and counted, and the same is remembered of related rules -/
structure Ledger.Like (R : Nat → Nat → Prop) (l l' : Ledger τ) : Prop where
  reader : l.reader = l'.reader
  tally : l.tally = l'.tally
  size : l.memo.map Std.TreeMap.size = l'.memo.map Std.TreeMap.size
  known : ∀ {r s}, R r s → ∀ offset, l.known? ⟨offset, r⟩ = l'.known? ⟨offset, s⟩

/-- the same but for numbers, after a move -/
def SameMove (N R : Nat → Nat → Prop) (x y : Move τ × Ledger τ) : Prop :=
  x.1.Like N R y.1 ∧ x.2.Like R y.2

variable {N R : Nat → Nat → Prop} {g h : Graph τ} {ignorables : List Pattern} {l l' : Ledger τ}

namespace Ledger.Like

theorem memo_none (hl : l.Like R l') : l.memo = none ↔ l'.memo = none := by
  rw [← Option.map_eq_none_iff, hl.size, Option.map_eq_none_iff]

theorem moveTo (hl : l.Like R l') (p : Place) : (l.moveTo p).Like R (l'.moveTo p) :=
  { hl with reader := congrArg (·.moveTo p) hl.reader }

theorem count (hl : l.Like R l') (f : Tally → Tally) : (l.count f).Like R (l'.count f) :=
  { hl with tally := congrArg f hl.tally }

theorem note (hl : l.Like R l') (e e' : Event) : (l.note e).Like R (l'.note e') :=
  { hl with }

theorem size_remember (l : Ledger τ) (key : Memo.Key) (entry : Memo.Entry τ) :
    (l.remember key entry).memo.map Std.TreeMap.size =
      (l.memo.map Std.TreeMap.size).map fun n => if (l.known? key).isSome then n else n + 1 := by
  rw [remember, known?]
  cases l.memo with
  | none => rfl
  | some memo =>
    show some (memo.insert key entry).size = some (if memo[key]?.isSome then _ else _)
    rw [Std.TreeMap.size_insert, Std.TreeMap.isSome_getElem?_eq_contains]

theorem remember (hg : g.Twins N R h) (hl : l.Like R l') {r s : Nat} (hrs : R r s) (offset : Nat)
    (entry : Memo.Entry τ) :
    (l.remember ⟨offset, r⟩ entry).Like R (l'.remember ⟨offset, s⟩ entry) := by
  refine ⟨hl.reader, hl.tally, ?_, fun {r' s'} hrs' offset' => ?_⟩
  · rw [size_remember, size_remember, hl.size, hl.known hrs offset]
  · by_cases hmemo : l.memo = none
    · have hmemo' : l'.memo = none := hl.memo_none.mp hmemo
      rw [known?_eq_none (by rw [Ledger.remember, hmemo]; rfl),
        known?_eq_none (by rw [Ledger.remember, hmemo']; rfl)]
    · have hsome := Option.isSome_iff_ne_none.mpr hmemo
      have hsome' := Option.isSome_iff_ne_none.mpr (mt hl.memo_none.mpr hmemo)
      -- by uniqueness, a key is overwritten in one memory just if it is in the other
      by_cases hkey : (⟨offset', r'⟩ : Memo.Key) = ⟨offset, r⟩
      · obtain ⟨rfl, rfl⟩ := Memo.Key.mk.inj hkey
        obtain rfl := (hg.unique hrs' hrs).mp rfl
        rw [known?_remember_self hsome, known?_remember_self hsome']
      · have hkey' : (⟨offset', s'⟩ : Memo.Key) ≠ ⟨offset, s⟩ := by
          intro heq
          obtain ⟨rfl, rfl⟩ := Memo.Key.mk.inj heq
          obtain rfl := (hg.unique hrs' hrs).mpr rfl
          exact hkey rfl
        rw [known?_remember_of_ne hkey, known?_remember_of_ne hkey']
        exact hl.known hrs' offset'

theorem begun (hg : g.Twins N R h) (hl : l.Like R l') {r s : Nat} (hrs : R r s) :
    (l.begun r).Like R (l'.begun s) := by
  have hnone := hl.memo_none
  have hoffset : l.reader.offset = l'.reader.offset := congrArg Reader.offset hl.reader
  rw [Ledger.begun, Ledger.begun]
  cases hmemo : l.memo with
  | none =>
    rw [hnone.mp hmemo]
    exact hl.note _ _
  | some memo =>
    cases hmemo' : l'.memo with
    | none =>
      rw [hnone.mpr hmemo'] at hmemo
      cases hmemo
    | some memo' =>
      show ((l.embark r).opened r).Like R ((l'.embark s).opened s)
      rw [embark, embark, key, key, hoffset]
      exact ((hl.count _).remember hg hrs _ _).note _ _

theorem closed (hg : g.Twins N R h) (hl : l.Like R l') {r s : Nat} (hrs : R r s) (start : Place)
    (result : Option (Fragment τ)) : (l.closed r start result).Like R (l'.closed s start result) := by
  rw [Ledger.closed, Ledger.closed, hl.reader]
  exact (hl.remember hg hrs _ _).note _ _

end Ledger.Like

/-! ## moves -/

namespace Graph.Twins

theorem enter (hg : g.Twins N R h) (hl : l.Like R l') {r s : Nat} (hrs : R r s) :
    SameMove N R (l.enter g r) (l'.enter h s) := by
  obtain ⟨i, j, hi, hj, hij⟩ := hg.root hrs
  have hknown : l'.known? (l'.key s) = l.known? (l.key r) := by
    rw [Ledger.key, Ledger.key, hl.reader]
    exact (hl.known hrs _).symm
  cases hentry : l.known? (l.key r) with
  | none =>
    rw [Ledger.enter_absent hi hentry, Ledger.enter_absent hj (hknown.trans hentry), hl.reader]
    exact ⟨.wait (.rule _ hrs) hij, hl.begun hg hrs⟩
  | some entry =>
    cases entry with
    | inProgress =>
      rw [Ledger.enter_inProgress hi hentry, Ledger.enter_inProgress hj (hknown.trans hentry)]
      exact ⟨.answer none, (hl.count _).note _ _⟩
    | done result stop =>
      rw [Ledger.enter_done hi hentry, Ledger.enter_done hj (hknown.trans hentry)]
      exact ⟨.answer result, (hl.count _).moveTo stop⟩

theorem readLeaf (hl : l.Like R l') (pattern : Pattern) (role : Role τ) :
    SameMove N R (l.readLeaf ignorables pattern role) (l'.readLeaf ignorables pattern role) := by
  have htried : l.tried.Like R l'.tried := hl.count _
  rw [Ledger.readLeaf, Ledger.readLeaf, hl.reader]
  split
  · exact ⟨.answer none, htried⟩
  · next found reader _ =>
    have hmatched : (l.matched reader).tally = (l'.matched reader).tally :=
      congrArg (fun t : Tally => { t with leafMatches := t.leafMatches + 1 }) htried.tally
    exact ⟨.answer _, rfl, hmatched, hl.size, hl.known⟩

/-- **Twins start the same parsers.** -/
theorem start (hg : g.Twins N R h) (hl : l.Like R l') {i j : Nat} (hij : N i j) :
    SameMove N R (l.start g ignorables i) (l'.start h ignorables j) := by
  obtain ⟨a, b, ha, hb, hab⟩ := hg.node hij
  rw [Ledger.start, Ledger.start, ha, hb, hl.reader]
  cases hab with
  | sequence shape hparts =>
    cases hparts with
    | nil => exact ⟨.answer _, hl⟩
    | cons hpart hparts => exact ⟨.wait (.sequence _ _ _ hparts) hpart, hl⟩
  | alternative shape hchoices =>
    cases hchoices with
    | nil => exact ⟨.answer _, hl⟩
    | cons hchoice hchoices => exact ⟨.wait (.alternative _ _ hchoices) hchoice, hl⟩
  | repetition bound shape hinner => exact ⟨.wait (.repetition _ _ _ _ _ _ hinner) hinner, hl⟩
  | optional hinner => exact ⟨.wait .optional hinner, hl⟩
  | leaf source pattern role =>
    cases pattern with
    | none => exact ⟨.answer none, hl⟩
    | some pattern => exact readLeaf hl pattern role
  | reference name hrule => exact hg.enter hl hrule
  | undefined name => exact ⟨.answer none, hl.note _ _⟩

theorem endRepetition (hl : l.Like R l') (bound : Bound) (shape : Shape τ) (count : Nat)
    (start : Place) (collected : List (Tree τ)) :
    SameMove N R (l.endRepetition bound shape count start collected)
      (l'.endRepetition bound shape count start collected) := by
  rw [Ledger.endRepetition, Ledger.endRepetition]
  split
  · exact ⟨.answer none, hl.moveTo start⟩
  · exact ⟨.answer _, hl⟩

/-- **Twins go on alike.** -/
theorem resume (hg : g.Twins N R h) (hl : l.Like R l') {frame frame' : Frame τ}
    (hframe : frame.Like N R frame') (part : Option (Fragment τ)) :
    SameMove N R (l.resume frame part) (l'.resume frame' part) := by
  cases hframe with
  | sequence shape start collected htodo =>
    cases part with
    | none => cases htodo <;> exact ⟨.answer none, hl.moveTo start⟩
    | some found =>
      cases htodo with
      | nil => exact ⟨.answer _, hl⟩
      | cons hpart hparts => exact ⟨.wait (.sequence _ _ _ hparts) hpart, hl⟩
  | alternative shape start htodo =>
    cases part with
    | none =>
      cases htodo with
      | nil => exact ⟨.answer none, hl.moveTo start⟩
      | cons hchoice hchoices =>
        exact ⟨.wait (.alternative _ _ hchoices) hchoice, hl.moveTo start⟩
    | some found => cases htodo <;> exact ⟨.answer _, hl⟩
  | repetition bound shape count start before collected hinner =>
    cases part with
    | none => exact endRepetition hl bound shape count start collected
    | some found =>
      rw [Ledger.resume, Ledger.resume, hl.reader]
      split
      · exact ⟨.wait (.repetition _ _ _ _ _ _ hinner) hinner, hl⟩
      · exact endRepetition ((hl.count _).note _ _) bound shape _ start _
  | optional => cases part <;> exact ⟨.answer _, hl⟩
  | rule start hrule => exact ⟨.answer part, hl.closed hg hrule start part⟩

end Graph.Twins

/-! ## machines -/

/-- machines that are the same but for numbers, and what they have noted -/
structure Machine.Like (N R : Nat → Nat → Prop) (m m' : Machine τ) : Prop where
  ledger : m.ledger.Like R m'.ledger
  counters : m.counters = m'.counters
  work : List.Forall₂ N m.work m'.work
  frames : List.Forall₂ (Frame.Like N R) m.frames.items m'.frames.items
  results : m.results = m'.results

namespace Machine.Like
variable {m m' : Machine τ}

theorem make (hm : m.Like N R m') {x y : Move τ × Ledger τ} (hxy : SameMove N R x y) :
    (m.make x).Like N R (m'.make y) := by
  obtain ⟨move, l⟩ := x
  obtain ⟨move', l'⟩ := y
  obtain ⟨hmove, hl⟩ := hxy
  have hcounters : m.counters.withTally l.tally = m'.counters.withTally l'.tally := by
    rw [hm.counters, show l.tally = l'.tally from hl.tally]
  cases hmove with
  | answer result =>
    exact ⟨hl, hcounters, hm.work, hm.frames, congrArg (List.cons result) hm.results⟩
  | wait hframe hnode =>
    exact ⟨hl, hcounters, .cons hnode hm.work, .cons hframe hm.frames, hm.results⟩

theorem tally (hm : m.Like N R m') (f : Counters → Counters) :
    (m.tally f).Like N R (m'.tally f) := by
  refine { hm with ledger := ⟨hm.ledger.reader, ?_, hm.ledger.size, hm.ledger.known⟩,
                   counters := congrArg f hm.counters }
  exact congrArg (fun c => (f c).tally) hm.counters

theorem observe (hm : m.Like N R m') : m.observe.Like N R m'.observe := by
  have hcounters : m.observe.counters = m'.observe.counters := by
    show m.counters.observe m.work.length m.frames.height m.results.length =
      m'.counters.observe m'.work.length m'.frames.height m'.results.length
    rw [hm.counters, hm.work.length_eq, m.frames.height_eq, m'.frames.height_eq,
      hm.frames.length_eq, hm.results]
  refine ⟨⟨hm.ledger.reader, congrArg Counters.tally hcounters, hm.ledger.size, hm.ledger.known⟩,
    hcounters, hm.work, hm.frames, hm.results⟩

theorem takeResult (hm : m.Like N R m') : m.takeResult.1 = m'.takeResult.1 ∧
    m.takeResult.2.Like N R m'.takeResult.2 := by
  rw [Machine.takeResult, Machine.takeResult, ← hm.results]
  split
  · exact ⟨rfl, hm⟩
  · exact ⟨rfl, { hm with results := rfl }⟩

end Machine.Like

/-- stacks of related items are both empty, or have related items on top of related stacks -/
theorem Pile.pop?_of_forall₂ {α : Type} {F : α → α → Prop} {p q : Pile α}
    (h : List.Forall₂ F p.items q.items) :
    (p.pop? = none ∧ q.pop? = none) ∨ ∃ a p' b q', p.pop? = some (a, p') ∧ q.pop? = some (b, q') ∧
      F a b ∧ List.Forall₂ F p'.items q'.items := by
  obtain ⟨items, height, hheight⟩ := p
  obtain ⟨items', height', hheight'⟩ := q
  cases h with
  | nil => exact .inl ⟨rfl, rfl⟩
  | cons hab hitems => exact .inr ⟨_, _, _, _, rfl, rfl, hab, hitems⟩

theorem Machine.advance_last {m : Machine τ} (hwork : m.work = []) (hpop : m.frames.pop? = none) :
    m.advance g ignorables = .finished m := by
  simp only [advance, hwork, hpop]

theorem Machine.advance_resume {m : Machine τ} {frame : Frame τ} {frames : Pile (Frame τ)}
    (hwork : m.work = []) (hpop : m.frames.pop? = some (frame, frames)) :
    let m' := ({ m with frames := frames }.tally fun c =>
      { c with resumes := c.resumes + 1 }).takeResult
    m.advance g ignorables = .running (m'.2.resume frame m'.1) := by
  simp only [advance, hwork, hpop]

/-- both machines have finished, or both go on -/
inductive Machine.Progress.Like (N R : Nat → Nat → Prop) :
    Machine.Progress τ → Machine.Progress τ → Prop
  | finished {m m' : Machine τ} : m.Like N R m' → Like N R (.finished m) (.finished m')
  | running {m m' : Machine τ} : m.Like N R m' → Like N R (.running m) (.running m')

namespace Graph.Twins
variable {m m' : Machine τ}

/-- **Twins take one step alike.** -/
theorem advance (hg : g.Twins N R h) (hm : m.Like N R m') :
    (m.advance g ignorables).Like N R (m'.advance h ignorables) := by
  have hwork := hm.work
  cases hnodes : m.work with
  | cons i work =>
    rw [hnodes] at hwork
    obtain ⟨j, work', hij, hwork', hnodes'⟩ := List.forall₂_cons_left_iff.mp hwork
    have hmore : ({ m with work := work } : Machine τ).Like N R { m' with work := work' } :=
      ⟨hm.ledger, hm.counters, hwork', hm.frames, hm.results⟩
    have hbegun := hmore.tally fun c => { c with steps := c.steps + 1 }
    rw [Machine.advance, Machine.advance, hnodes, hnodes']
    refine .running ?_
    rw [Machine.start_eq, Machine.start_eq]
    exact hbegun.make (hg.start hbegun.ledger hij)
  | nil =>
    have hnodes' : m'.work = [] := by
      rw [hnodes] at hwork
      exact List.forall₂_nil_left_iff.mp hwork
    rcases Pile.pop?_of_forall₂ hm.frames with ⟨hpop, hpop'⟩ |
      ⟨frame, frames, frame', frames', hpop, hpop', hframe, hframes⟩
    · rw [Machine.advance_last hnodes hpop, Machine.advance_last hnodes' hpop']
      exact .finished hm
    · have hmore : ({ m with frames := frames } : Machine τ).Like N R { m' with frames := frames' } :=
        ⟨hm.ledger, hm.counters, hm.work, hframes, hm.results⟩
      have hbegun := (hmore.tally fun c => { c with resumes := c.resumes + 1 }).takeResult
      rw [Machine.advance_resume hnodes hpop, Machine.advance_resume hnodes' hpop', hbegun.1,
        Machine.resume_eq, Machine.resume_eq]
      exact .running (hbegun.2.make (hg.resume hbegun.2.ledger hframe _))

/-- **Twins run in lockstep**, up to the same limit. -/
theorem machine_run? (hg : g.Twins N R h) (hm : m.Like N R m') (limit : Nat) :
    Option.Rel (Machine.Like N R) (m.run? g ignorables limit) (m'.run? h ignorables limit) := by
  induction limit generalizing m m' with
  | zero => exact .none
  | succ limit ih =>
    have hadvance : (m.observe.advance g ignorables).Like N R (m'.observe.advance h ignorables) :=
      hg.advance hm.observe
    rw [Machine.run?, Machine.run?]
    generalize m.observe.advance g ignorables = a at hadvance ⊢
    generalize m'.observe.advance h ignorables = b at hadvance ⊢
    cases hadvance with
    | finished hm₁ => exact .some hm₁
    | running hm₁ => exact ih hm₁

theorem first (text : List Char) (memoize : Bool) :
    (Machine.first text memoize : Machine τ).Like N R (Machine.first text memoize) := by
  have hledger : (Machine.first text memoize : Machine τ).ledger.Like R
      (Machine.first text memoize).ledger := by
    refine ⟨rfl, rfl, rfl, fun _ _ => ?_⟩
    cases memoize with
    | false => rfl
    | true => exact Std.TreeMap.getElem?_emptyc.trans Std.TreeMap.getElem?_emptyc.symm
  exact ⟨hledger, rfl, .nil, .nil, rfl⟩

end Graph.Twins

/-! ## texts -/

/-- all that is seen of an outcome but what was noted, where rules have numbers -/
def Outcome.account (o : Outcome τ) : Except ParseError (Tree τ) × Nat × Bool × Counters :=
  (o.result, o.consumed, o.trailing, o.counters)

theorem Machine.totals_eq (m : Machine τ) :
    m.totals =
      { m.counters with memoEntries := (m.ledger.memo.map Std.TreeMap.size).getD 0 } := by
  rw [Machine.totals]
  show _ = { m.counters with memoEntries := (m.memo.map Std.TreeMap.size).getD 0 }
  cases m.memo <;> rfl

theorem Machine.Like.totals {m m' : Machine τ} (hm : m.Like N R m') : m.totals = m'.totals := by
  have hsize := hm.ledger.size
  rw [m.totals_eq, m'.totals_eq, hm.counters, hsize]

/-- **Parsing a text comes to the same with twins**, within the same limit. -/
theorem Graph.Twins.run? (hg : g.Twins N R h) {r s : Nat} (hrs : R r s)
    (hignorables : g.ignorables = h.ignorables) (hname : g.ruleName r = h.ruleName s) (limit : Nat)
    (text : String) (options : Options) :
    (g.run? limit r text options).map Outcome.account =
      (h.run? limit s text options).map Outcome.account := by
  have hfor : g.ignorablesFor options = h.ignorablesFor options := by
    rw [ignorablesFor, ignorablesFor, hignorables]
  have hfirst : (Machine.first text.toList options.memoize : Machine τ).Like N R
      (Machine.first text.toList options.memoize) := first _ _
  have hentered : ((Machine.first text.toList options.memoize).enter g r).Like N R
      ((Machine.first text.toList options.memoize).enter h s) := by
    rw [Machine.enter_eq, Machine.enter_eq]
    exact hfirst.make (hg.enter hfirst.ledger hrs)
  have hrun : Option.Rel (Machine.Like N R)
      (((Machine.first text.toList options.memoize).enter g r).run? g (h.ignorablesFor options) limit)
      (((Machine.first text.toList options.memoize).enter h s).run? h (h.ignorablesFor options)
        limit) := hg.machine_run? hentered limit
  rw [Graph.run?, Graph.run?, hfor, Machine.evaluateRule?, Machine.evaluateRule?, Machine.finish?,
    Machine.finish?]
  generalize Machine.run? g _ limit _ = a at hrun ⊢
  generalize Machine.run? h _ limit _ = b at hrun ⊢
  cases hrun with
  | none => rfl
  | @some m m' hm =>
    obtain ⟨hresult, hm'⟩ := hm.takeResult
    have hreader : m.takeResult.2.reader = m'.takeResult.2.reader := hm'.ledger.reader
    -- an error shows the name of the rule, and not its number
    have hresultOf : g.resultOf r = h.resultOf s := by
      funext text options ignorables reader trailing result
      cases result with
      | none =>
        show Except.error (ParseError.noMatch (g.ruleName r) _ _) = _
        rw [hname]
        rfl
      | some found => rfl
    simp only [Option.map_some, Outcome.account, hresult, hm'.totals, hreader, hresultOf]

end

end Packrat
