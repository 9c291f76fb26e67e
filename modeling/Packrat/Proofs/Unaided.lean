import Packrat.Language.Arithmetic
import Packrat.Language.Assembly
import Packrat.Language.Json
import Packrat.Proofs.Strides
import Packrat.Proofs.Termination
import Packrat.Proofs.Transparency

/-!
# Parsing that needs no memory

Where no rule comes back to itself without moving on, parsing comes to an end without a memory, and
a memory cuts nothing off.

* `Node.leading`        the parsers that a parser may start at the place where it begins itself;
* `Graph.Ranked`        they have a lower rank than the parser;
* `Ledger.Room`         a run without a memory with so many bytes left;
* `Room.comes_start`    without a memory, every parser comes to a result: either bytes are used up, or
                        the rank falls;
* `Graph.progresses`    a test for ranks and parsers that move on;
* `Graph.Uncut`         a text is parsed alike with and without a memory, and nothing is cut off or
                        stands still;
* `bundled_uncut`       so it is with the grammars that come with the library.
-/

namespace Packrat

section
variable {τ : Type}

/-! ## ranks -/

/-- the parts up to the first that moves on -/
def leadingParts (moves : Nat → Bool) : List Nat → List Nat
  | [] => []
  | part :: parts => part :: if moves part then [] else leadingParts moves parts

/-- the parsers that a parser may start at the place where it begins itself -/
def Node.leading (g : Graph τ) (moves : Nat → Bool) : Node τ → List Nat
  | .sequence parts _ => leadingParts moves parts
  | .reference _ rule => (rule.bind g.root?).toList
  | node => node.operands

/-- the rank falls from each parser to those that it may start where it begins -/
def Graph.Ranked (g : Graph τ) (moves : Nat → Bool) (rank : Nat → Nat) : Prop :=
  ∀ {i : Nat} {node : Node τ}, g.nodes[i]? = some node → ∀ part ∈ node.leading g moves,
    rank part < rank i

/-! ## runs without a memory -/

/-- a run without a memory stands at or after `p`, with at most `n` bytes left -/
structure Ledger.Room (p : Place) (n : Nat) (l : Ledger τ) : Prop where
  free : l.memo = none
  here : p ≤ l.reader.place
  left : p.limit ≤ l.reader.offset + n

variable {g : Graph τ} {ignorables : List Pattern} {moves : Nat → Bool} {rank : Nat → Nat}
  {p start : Place} {n : Nat} {l : Ledger τ} {shape : Shape τ}

theorem Ledger.strides_of_none (h : l.memo = none) : l.Strides g moves l.tally.zeroWidthStops := by
  refine ⟨fun hkey _ => ?_, rfl⟩
  rw [known?_eq_none h] at hkey
  cases hkey

namespace Ledger.Room

theorem moveTo (hl : l.Room p n) (hstart : p ≤ start) (hleft : p.limit ≤ start.offset + n) :
    (l.moveTo start).Room p n :=
  ⟨hl.free, hstart, hleft⟩

/-- a run that has moved on has fewer bytes left -/
theorem further {l₁ : Ledger τ} (hl : l.Room p n) (hl₁ : l₁.Room p n)
    (hmoved : l.reader.offset < l₁.reader.offset) : ∃ n' < n, l₁.Room p n' := by
  have hlimit : l₁.reader.offset ≤ p.limit := Place.offset_le_limit hl₁.here
  have hleft := hl.left
  exact ⟨p.limit - l₁.reader.offset, by omega, hl₁.free, hl₁.here, by omega⟩

/-- a parser that waits comes to a result, if its part does and it goes on to one from where the part
has come to -/
theorem comes_wait {node : Nat} {frame : Frame τ} (hg : g.Moving moves) (hl : l.Room p n)
    (hpart : Comes g ignorables (l.start g ignorables node))
    (hrest : ∀ (part : Option (Fragment τ)) (l₁ : Ledger τ), l₁.Room p n →
      l.reader.offset + gain moves node part ≤ l₁.reader.offset →
      Comes g ignorables (l₁.resume frame part)) :
    Comes g ignorables (.wait frame node, l) := by
  obtain ⟨i, part, l₁, h₁⟩ := hpart
  have hgain := (h₁.strides hg (Ledger.strides_of_none hl.free)).2
  have hhere : l.reader.place ≤ l₁.reader.place :=
    (h₁.extends_start (Ledger.within_of_none hl.free)).within.here
  have hl₁ : l₁.Room p n := by
    refine ⟨h₁.forgetful hl.free, Place.le_trans hl.here hhere, ?_⟩
    have hleft := hl.left
    omega
  obtain ⟨j, r, l₂, h₂⟩ := hrest part l₁ hl₁ hgain
  exact ⟨i + j + 1, r, l₂, .wait h₁ h₂⟩

/-- a sequence comes to a result, if its leading parts do, and all parsers do with fewer bytes
left -/
theorem comes_proceed {parts : List Nat} {collected : List (Tree τ)} (hg : g.Moving moves)
    (hless : ∀ n' < n, ∀ part (l : Ledger τ), l.Room p n' →
      Comes g ignorables (l.start g ignorables part))
    (hleading : ∀ part ∈ leadingParts moves parts, ∀ l : Ledger τ, l.Room p n →
      Comes g ignorables (l.start g ignorables part))
    (hl : l.Room p n) : Comes g ignorables (l.proceed parts shape start collected) := by
  induction parts generalizing l n collected with
  | nil => exact comes_answer _ _
  | cons part parts ih =>
    refine hl.comes_wait hg (hleading part List.mem_cons_self l hl) fun found l₁ hl₁ hgain => ?_
    cases found with
    | none => exact comes_answer _ _
    | some found =>
      rw [Ledger.resume_sequence]
      cases hpart : moves part with
      | true =>
        -- bytes are used up, so the parts that follow may be any parsers
        have hmoved : l.reader.offset < l₁.reader.offset := by
          rw [gain, hpart] at hgain
          exact hgain
        obtain ⟨n', hn', hl₁'⟩ := hl.further hl₁ hmoved
        exact ih (fun n'' hn'' => hless n'' (by omega)) (fun part _ => hless n' hn' part) hl₁'
      | false =>
        -- the next part may start at the same place, and so it is a leading one
        refine ih hless (fun part' hpart' => hleading part' ?_) hl₁
        rw [leadingParts, hpart]
        exact List.mem_cons_of_mem _ hpart'

theorem comes_choose {choices : List Nat} (hg : g.Moving moves)
    (hparts : ∀ part ∈ choices, ∀ l : Ledger τ, l.Room p n →
      Comes g ignorables (l.start g ignorables part))
    (hstart : p ≤ start) (hleft : p.limit ≤ start.offset + n) (hl : l.Room p n) :
    Comes g ignorables (l.choose choices shape start) := by
  induction choices generalizing l with
  | nil => exact comes_answer _ _
  | cons choice choices ih =>
    refine hl.comes_wait hg (hparts choice List.mem_cons_self l hl) fun found l₁ hl₁ _ => ?_
    cases found with
    | none =>
      rw [Ledger.resume_alternative]
      exact ih (fun part hpart => hparts part (List.mem_cons_of_mem _ hpart))
        (hl₁.moveTo hstart hleft)
    | some found => exact comes_answer _ _

theorem comes_rounds {inner count : Nat} {bound : Bound} {collected : List (Tree τ)}
    (hg : g.Moving moves)
    (hinner : ∀ l : Ledger τ, l.Room p n → Comes g ignorables (l.start g ignorables inner))
    (hl : l.Room p n) :
    Comes g ignorables
      (.wait (.repetition inner bound shape count start l.reader.place collected) inner, l) := by
  -- the number of bytes that are left falls with each round but the last
  induction hleft : p.limit - l.reader.offset using Nat.strongRecOn
    generalizing l count collected with
  | ind left ih =>
    refine hl.comes_wait hg (hinner l hl) fun found l₁ hl₁ _ => ?_
    cases found with
    | none => exact comes_endRepetition _ _ _ _ _ _
    | some found =>
      by_cases hmoved : l.reader.offset < l₁.reader.offset
      · rw [Ledger.resume_moved hmoved]
        have hlimit : l₁.reader.offset ≤ p.limit := Place.offset_le_limit hl₁.here
        exact ih (p.limit - l₁.reader.offset) (by omega) hl₁ rfl
      · rw [Ledger.resume_still (Nat.not_lt.mp hmoved)]
        exact comes_endRepetition _ _ _ _ _ _

theorem comes_enter {rule : Nat} (hg : g.Moving moves)
    (hroot : ∀ root ∈ g.root? rule, ∀ l : Ledger τ, l.Room p n →
      Comes g ignorables (l.start g ignorables root))
    (hl : l.Room p n) : Comes g ignorables (l.enter g rule) := by
  cases hrule : g.root? rule with
  | none =>
    rw [Ledger.enter_undefined hrule]
    exact comes_answer _ _
  | some root =>
    rw [Ledger.enter_absent hrule (Ledger.known?_eq_none hl.free _), Ledger.begun_of_none hl.free]
    have hbegun : (l.note (.entered rule l.reader.offset)).Room p n := ⟨hl.free, hl.here, hl.left⟩
    exact hbegun.comes_wait hg (hroot root hrule _ hbegun) fun _ _ _ _ => comes_answer _ _

/-- **Where the rank falls, every parser comes to a result without a memory**: it reads on, and fewer
bytes are left, or the rank falls. -/
theorem comes_start {node : Nat} (hg : g.Moving moves) (hrank : g.Ranked moves rank)
    (hl : l.Room p n) : Comes g ignorables (l.start g ignorables node) := by
  -- by induction on the bytes that are left, and with as many bytes left, on the rank
  induction n using Nat.strongRecOn generalizing node l with
  | ind n ihn =>
    induction hr : rank node using Nat.strongRecOn generalizing node l with
    | ind r ih =>
      have hless : ∀ n' < n, ∀ part (l : Ledger τ), l.Room p n' →
          Comes g ignorables (l.start g ignorables part) := fun n' hn' part l hl => ihn n' hn' hl
      cases hnode : g.nodes[node]? with
      | none =>
        rw [Ledger.start, hnode]
        exact comes_answer _ _
      | some found =>
        have hleading : ∀ part ∈ found.leading g moves, ∀ l : Ledger τ, l.Room p n →
            Comes g ignorables (l.start g ignorables part) := by
          intro part hpart l hl
          have hlower := hrank hnode part hpart
          exact ih (rank part) (by omega) hl rfl
        cases found with
        | sequence parts shape =>
          rw [Ledger.start_sequence hnode]
          exact hl.comes_proceed hg hless hleading
        | alternative choices shape =>
          rw [Ledger.start_alternative hnode]
          exact hl.comes_choose hg hleading hl.here hl.left
        | repetition inner bound shape =>
          rw [Ledger.start, hnode]
          exact hl.comes_rounds hg (hleading inner List.mem_cons_self)
        | optional inner =>
          rw [Ledger.start, hnode]
          have hinner := hleading inner List.mem_cons_self l hl
          refine hl.comes_wait hg hinner fun part l₁ _ _ => ?_
          cases part <;> exact comes_answer _ _
        | leaf source pattern role =>
          rw [Ledger.start, hnode]
          cases pattern with
          | none => exact comes_answer _ _
          | some pattern =>
            show Comes g ignorables (l.readLeaf ignorables pattern role)
            rw [Ledger.readLeaf]
            split <;> exact comes_answer _ _
        | reference name rule =>
          rw [Ledger.start, hnode]
          cases rule with
          | none => exact comes_answer _ _
          | some rule =>
            refine hl.comes_enter hg fun root hroot => hleading root ?_
            exact Option.mem_toList.mpr hroot

end Ledger.Room

/-! ## texts -/

/-- parsing a text with a rule of the graph comes to one outcome with a memory and one without; they
show the same, and with a memory nothing is cut off and no repetition stands still -/
def Graph.Uncut (g : Graph τ) : Prop :=
  ∀ (rule : Nat) (text : String) (options : Options), ∃ o o₀ : Outcome τ,
    (∀ outcome, (∃ limit, g.run? limit rule text { options with memoize := true } = some outcome) ↔
      outcome = o) ∧
    (∀ outcome, (∃ limit, g.run? limit rule text { options with memoize := false } =
      some outcome) ↔ outcome = o₀) ∧
    (o₀.result, o₀.consumed, o₀.trailing) = (o.result, o.consumed, o.trailing) ∧
    o.counters.recursionCuts = 0 ∧ o.counters.zeroWidthStops = 0

namespace Graph

theorem run?_mono {limit limit' rule : Nat} {text : String} {options : Options} {o : Outcome τ}
    (hle : limit ≤ limit') (h : g.run? limit rule text options = some o) :
    g.run? limit' rule text options = some o := by
  rw [run?] at h ⊢
  split at h
  · cases h
  · next result m hm =>
    have hm' : (Machine.first text.toList options.memoize).evaluateRule? g
        (g.ignorablesFor options) limit' rule = some (result, m) := Machine.finish?_mono hle hm
    rw [hm']
    exact h

/-- parsing a text comes to one outcome, if its first move settles -/
theorem run?_iff_of_settles {k : Nat} (rule : Nat) (text : String) (options : Options)
    {result : Option (Fragment τ)}
    (h : Settles g (g.ignorablesFor options) k (g.opening rule text options) result l) :
    ∃ o : Outcome τ, (∀ outcome, (∃ limit, g.run? limit rule text options = some outcome) ↔
      outcome = o) ∧ (o.result, o.consumed, o.trailing) = g.seenOf rule text options result l.reader ∧
      o.counters.tally = l.tally := by
  have hidle : (Machine.fresh (Reader.first text.toList) options.memoize : Machine τ).Idle :=
    Machine.fresh_idle _ _
  obtain ⟨m, -, rfl, hserve⟩ := Machine.serve?_of_settles hidle h
  have hm : (Machine.first text.toList options.memoize).evaluateRule? g (g.ignorablesFor options)
      (2 * k + 2) rule = some (result, m) := hserve _ (by omega)
  obtain ⟨o, ho, hseen, htally⟩ : ∃ o : Outcome τ, g.run? (2 * k + 2) rule text options = some o ∧
      (o.result, o.consumed, o.trailing) = g.seenOf rule text options result m.reader ∧
      o.counters.tally = m.counters.tally := by
    rw [run?, hm]
    exact ⟨_, rfl, rfl, rfl⟩
  refine ⟨o, fun outcome => ⟨?_, ?_⟩, hseen, htally⟩
  · rintro ⟨limit, hlimit⟩
    have hone := run?_mono (Nat.le_max_left limit (2 * k + 2)) hlimit
    rw [run?_mono (Nat.le_max_right limit (2 * k + 2)) ho] at hone
    exact (Option.some.inj hone).symm
  · rintro rfl
    exact ⟨_, ho⟩

/-- **Where ranks fall and all that is repeated moves on, a memory cuts nothing off**: it is not
needed, and it does not show. -/
theorem uncut (hg : g.Moving moves) (hrank : g.Ranked moves rank) : g.Uncut := by
  intro rule text options
  let fresh (memoize : Bool) : Ledger τ := (Machine.fresh (Reader.first text.toList) memoize).ledger
  let p := Place.first text.toList
  have hroom : (fresh false).Room p (byteLength p.rest) := ⟨rfl, Place.le_refl _, Nat.le_refl _⟩
  obtain ⟨k₀, result, l₀, h₀⟩ : Comes g (g.ignorablesFor options)
      ((fresh false).begin g (g.ignorablesFor options) (.rule rule)) :=
    hroom.comes_enter hg fun root _ l hl => hl.comes_start hg hrank
  -- a run with a memory mirrors the one without, and so it has nothing to cut off
  have hmirrors := Mirrors.fresh g (g.ignorablesFor options) (Reader.first text.toList)
  obtain ⟨k, l, h, hl⟩ := hmirrors.begin_on h₀
  have hstrides : (fresh true).Strides g moves 0 := by
    refine ⟨fun hkey _ => ?_, rfl⟩
    rw [Machine.fresh_known?] at hkey
    cases hkey
  have hbelow : StridesBelow g (g.ignorablesFor options) moves 0 k :=
    fun _ _ _ _ _ hl h => h.strides hg hl
  have hstops := (hbelow.enter (Nat.le_refl _) hstrides h).1.stops
  obtain ⟨o, ho, hseen, htally⟩ :=
    run?_iff_of_settles rule text { options with memoize := true } h
  obtain ⟨o₀, ho₀, hseen₀, -⟩ :=
    run?_iff_of_settles rule text { options with memoize := false } h₀
  refine ⟨o, o₀, ho, ho₀, ?_, ?_, ?_⟩
  · rw [hseen, hseen₀, hl.reader]
    rfl
  · have hcuts : o.counters.tally.recursionCuts = 0 := by rw [htally, hl.cuts]
    exact hcuts
  · have hstill : o.counters.tally.zeroWidthStops = 0 := by rw [htally, hstops]
    exact hstill

/-! ## the test -/

/-- the parsers that move on, as far as it is seen from their parts `depth` levels down -/
def movesWithin (g : Graph τ) : Nat → Nat → Bool
  | 0, _ => false
  | depth + 1, i => (g.nodes[i]?).any (Node.moves g (g.movesWithin depth))

/-- the length of the longest chain of parsers, up to `depth`, that start one another at one place -/
def rankWithin (g : Graph τ) (moves : Nat → Bool) : Nat → Nat → Nat
  | 0, _ => 0
  | depth + 1, i =>
    match g.nodes[i]? with
    | none => 0
    | some node => ((node.leading g moves).map (g.rankWithin moves depth)).foldl max 0 + 1

/-- whether the parser moves on if it is said to, and whether ranks fall from it -/
def progressesAt (g : Graph τ) (moves : Nat → Bool) (rank : Nat → Nat) (i : Nat) : Bool :=
  match g.nodes[i]? with
  | none => true
  | some node =>
    (!moves i || node.moves g moves) && (node.leading g moves).all (fun part => rank part < rank i) &&
      match node with
      | .repetition inner _ _ => moves inner
      | _ => true

/-- whether all that is repeated moves on and ranks fall everywhere -/
def progresses (g : Graph τ) : Bool :=
  let moves := g.movesWithin g.nodes.size
  let rank := g.rankWithin moves g.nodes.size
  (List.range g.nodes.size).all (g.progressesAt moves rank)

theorem uncut_of_progresses (h : g.progresses = true) : g.Uncut := by
  let moves := g.movesWithin g.nodes.size
  let rank := g.rankWithin moves g.nodes.size
  have hnode : ∀ {i : Nat} {node : Node τ}, g.nodes[i]? = some node →
      g.progressesAt moves rank i = true := by
    intro i node hnode
    obtain ⟨hi, -⟩ := Array.getElem?_eq_some_iff.mp hnode
    exact List.all_eq_true.mp h i (List.mem_range.mpr hi)
  have hmoving : g.Moving moves := by
    constructor
    · intro i node hi hmoves
      have hat := hnode hi
      simp only [progressesAt, hi, Bool.and_eq_true] at hat
      simpa [hmoves] using hat.1.1
    · intro i inner bound shape hi
      have hat := hnode hi
      simp only [progressesAt, hi, Bool.and_eq_true] at hat
      exact hat.2
  have hranked : g.Ranked moves rank := by
    intro i node hi part hpart
    have hat := hnode hi
    simp only [progressesAt, hi, Bool.and_eq_true] at hat
    simpa using List.all_eq_true.mp hat.1.2 part hpart
  exact uncut hmoving hranked

end Graph

end

/-- **The grammars that come with the library need no memory.**  Whatever the rule, the text and the
patterns of ignorable text, parsing comes to an end with and without one and shows the same; with a
memory, no attempt is cut off and no repetition stands still. -/
theorem bundled_uncut :
    Arithmetic.grammar.compile.Uncut ∧ JsonTag.grammar.compile.Uncut ∧
      AssemblyTag.grammar.compile.Uncut := by
  refine ⟨Graph.uncut_of_progresses ?_, Graph.uncut_of_progresses ?_, Graph.uncut_of_progresses ?_⟩
  · decide +kernel
  · decide +kernel
  · decide +kernel

end Packrat
