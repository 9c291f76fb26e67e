import Packrat.Proofs.Nullability

/-!
# Matches that stand still

Whether a pattern can match without moving on is judged by the empty text alone.  That is right for
all patterns but those that ask for a boundary of words: `\b` has no match in the empty text, and one
that takes nothing before a letter.

* `Expr.unbounded`         the expression asks for no boundary of words;
* `Pattern.steady`         the pattern moves on with every match, or it matches the empty text;
* `Pattern.steady_of_unbounded`   without boundaries of words, every pattern is steady;
* `Machine.Borne`          whatever has come of requests so far can be derived;
* `Grammar.reported`       a repetition of a nullable parser is reported for its rule;
* `nullability_misses_nothing`   where all patterns are steady, what stands still is nullable, and
                           each repetition that stands still is reported;
* `Brink.nullability_missed`   and where one is not, this fails.
-/

namespace Packrat

/-! ## patterns -/

namespace Expr

/-- the expression asks for no boundary of words -/
def unbounded : Expr → Bool
  | .empty => true
  | .set _ _ => true
  | .assert a => a != .wordBoundary
  | .seq e f => e.unbounded && f.unbounded
  | .alt e f => e.unbounded && f.unbounded
  | .group _ e => e.unbounded
  | .opt _ e => e.unbounded
  | .plus _ e => e.unbounded
  | .star _ e => e.unbounded

/-- all other conditions hold in the empty text -/
theorem holds_of_ne_wordBoundary {a : Assertion} (h : (a != .wordBoundary) = true) :
    a.holds none none = true := by
  cases a with
  | wordBoundary => cases h
  | _ => rfl

/-- **Without boundaries of words, what need not take a character matches the empty text.** -/
theorem exists_mem_ends {e : Expr} (he : e.unbounded = true) (hmoves : e.moves = false) {s : Spot}
    (hbefore : s.before = none) (hrest : s.place.rest = []) :
    ∃ t ∈ e.ends s, t.before = none ∧ t.place = s.place := by
  induction e generalizing s with
  | empty => exact ⟨s, List.mem_cons_self, hbefore, rfl⟩
  | set cs anyCase => cases hmoves
  | assert a =>
    have hholds : a.holds s.before s.place.rest.head? = true := by
      rw [hbefore, hrest]
      exact holds_of_ne_wordBoundary he
    refine ⟨s, ?_, hbefore, rfl⟩
    rw [ends_assert, if_pos hholds]
    exact List.mem_cons_self
  | seq e f ihe ihf =>
    obtain ⟨hunbounded, hunbounded'⟩ := Bool.and_eq_true_iff.mp he
    obtain ⟨hmoves, hmoves'⟩ := Bool.or_eq_false_iff.mp hmoves
    obtain ⟨t, ht, hbefore, hplace⟩ := ihe hunbounded hmoves hbefore hrest
    obtain ⟨u, hu, hbefore, hplace'⟩ := ihf hunbounded' hmoves' hbefore (hplace ▸ hrest)
    refine ⟨u, ?_, hbefore, hplace'.trans hplace⟩
    rw [ends_seq]
    exact List.mem_flatMap.mpr ⟨t, ht, hu⟩
  | alt e f ihe ihf =>
    obtain ⟨hunbounded, hunbounded'⟩ := Bool.and_eq_true_iff.mp he
    rw [ends_alt]
    rcases Bool.and_eq_false_iff.mp hmoves with hmoves | hmoves
    · obtain ⟨t, ht, hstill⟩ := ihe hunbounded hmoves hbefore hrest
      exact ⟨t, List.mem_append_left _ ht, hstill⟩
    · obtain ⟨t, ht, hstill⟩ := ihf hunbounded' hmoves hbefore hrest
      exact ⟨t, List.mem_append_right _ ht, hstill⟩
  | group index e ih =>
    obtain ⟨t, ht, hbefore, hplace⟩ := ih he hmoves hbefore hrest
    refine ⟨t.close index s.place, ?_, hbefore, hplace⟩
    rw [ends_group]
    exact List.mem_map_of_mem ht
  | opt greedy e ih =>
    refine ⟨s, ?_, hbefore, rfl⟩
    rw [ends_opt]
    exact mem_prefer.mpr (.inl rfl)
  | plus greedy e ih =>
    obtain ⟨t, ht, hbefore, hplace⟩ := ih he hmoves hbefore hrest
    exact ⟨t, mem_ends_plus greedy ht, hbefore, hplace⟩
  | star greedy e ih => exact ⟨s, mem_ends_star greedy e s, hbefore, rfl⟩

end Expr

namespace Pattern

/-- the pattern moves on with every match, or it matches the empty text -/
def steady (pattern : Pattern) : Bool := pattern.expr.moves || pattern.isNullable

theorem steady_of_unbounded {pattern : Pattern} (h : pattern.expr.unbounded = true) :
    pattern.steady = true := by
  rw [steady]
  cases hmoves : pattern.expr.moves with
  | true => rfl
  | false =>
    obtain ⟨t, ht, -⟩ := Expr.exists_mem_ends h hmoves (s := Spot.start (Place.first [])) rfl rfl
    rw [Bool.false_or, isNullable, Expr.firstEnd?_eq, List.isSome_head?]
    exact List.ne_nil_of_mem ht

end Pattern

section
variable {τ : Type}

/-- all patterns of leaves are steady -/
def Graph.steady (g : Graph τ) : Bool :=
  g.nodes.all fun
    | .leaf _ (some pattern) _ => pattern.steady
    | _ => true

/-- where patterns are steady, leaves tell at every place -/
theorem Graph.leavesTell_of_steady {g : Graph τ} (h : g.steady = true) (ignorables : List Pattern)
    (p : Place) : g.LeavesTell ignorables p := by
  intro node source pattern role found q hnode hlook hstill
  have hsteady : pattern.steady = true :=
    Array.all_eq_true_iff_forall_mem.mp h _ (Array.mem_of_getElem? hnode)
  have hmoves := offset_of_lookAlong? _ hlook
  rw [Pattern.steady] at hsteady
  cases hmove : pattern.expr.moves with
  | true =>
    rw [hmove, Bool.toNat_true] at hmoves
    omega
  | false =>
    rw [hmove, Bool.false_or] at hsteady
    exact hsteady

/-! ## what has come of requests so far -/

section
variable {g : Graph τ} {ignorables : List Pattern}

namespace Machine
variable {m m' : Machine τ}

/-- whatever has come of requests so far can be derived -/
def Borne (g : Graph τ) (ignorables : List Pattern) (p : Place) (m : Machine τ) : Prop :=
  (m.Idle ∧ ∃ j : Journal τ, m.ledger.Vouched g ignorables p j.recorded) ∨
    ∃ s base call j, m.At s ∧ s.Borne g ignorables p base call j

/-- so can whatever is remembered -/
theorem Borne.vouched {p : Place} (h : m.Borne g ignorables p) :
    ∃ j : Journal τ, m.ledger.Vouched g ignorables p j.recorded := by
  rcases h with ⟨-, hl⟩ | ⟨s, base, call, j, hat, hs⟩
  · exact hl
  · exact ⟨j, hat.ledger ▸ hs.vouched⟩

/-- **Whatever has come of requests so far can be derived**, in every state that a machine comes
through. -/
theorem Visits.borne {reader : Reader} {memoize : Bool} {found : List Match}
    (h : Visits g ignorables (fresh reader memoize) found m) : m.Borne g ignorables reader.place := by
  induction h with
  | first => exact .inl ⟨fresh_idle reader memoize, {}, fresh_vouched reader memoize _⟩
  | @request found m call _ hidle ih =>
    obtain ⟨j, hl⟩ := ih.vouched
    exact .inr ⟨_, _, call, _, at_request hidle call,
      .request (j := { j with behind := [] }) hl rfl call⟩
  | @step found m m' _ hgoes ih =>
    rcases ih with ⟨hidle, -⟩ | ⟨s, base, call, j, hat, hs⟩
    · exact absurd hgoes hidle.not_goes
    · obtain ⟨s', hstep, hat'⟩ := hat.goes hgoes
      exact .inr ⟨s', base, call, _, hat', hs.step hstep⟩
  | @finish found m m' _ hend ih =>
    rcases ih with ⟨hidle, j, hl⟩ | ⟨s, base, call, j, hat, hs⟩
    · obtain ⟨hidle', hledger⟩ := hidle.finished hend
      exact .inl ⟨hidle', j, hledger ▸ hl⟩
    · obtain ⟨-, -, -, -, hidle, hledger⟩ := hat.finished hend
      exact .inl ⟨hidle, j, hledger ▸ hs.vouched⟩

end Machine

namespace Stage.Borne
variable {p base : Place} {call : Call} {j : Journal τ} {frames : List (Frame τ)} {l : Ledger τ}
  {found : Fragment τ}

/-- an attempt at a rule that ends where it began -/
theorem nullable_of_rule (hleaf : ∀ p, g.LeavesTell ignorables p) {rule : Nat} {start : Place}
    (h : Stage.Borne g ignorables p base call ⟨.rule rule start :: frames, .deliver (some found), l⟩ j)
    (hstill : l.reader.offset = start.offset) : g.Nullable (.rule rule) := by
  obtain ⟨part, inner, hnested, htask⟩ := h.nested
  generalize j.behind = behind at hnested
  cases hnested with
  | frame _ hawaits =>
    cases hawaits with
    | rule _ hroot => exact ⟨_, hroot, Derived.nullable (hleaf _) htask rfl hstill⟩

/-- a round of a repetition that ends where it began -/
theorem nullable_of_round (hleaf : ∀ p, g.LeavesTell ignorables p) {inner count : Nat}
    {bound : Bound} {shape : Shape τ} {start before : Place} {collected : List (Tree τ)}
    (h : Stage.Borne g ignorables p base call
      ⟨.repetition inner bound shape count start before collected :: frames, .deliver (some found), l⟩
      j) (hstill : l.reader.offset ≤ before.offset) :
    g.nullable inner = true ∧ ∃ n : Nat, g.nodes[n]? = some (.repetition inner bound shape) := by
  obtain ⟨part, place, hnested, htask⟩ := h.nested
  generalize j.behind = behind at hnested
  cases hnested with
  | frame _ hawaits =>
    cases hawaits with
    | repetition hnode _ =>
      have hle := Place.offset_le (Derived.le htask)
      have hsame : l.reader.place.offset = before.offset := Nat.le_antisymm hstill hle
      exact ⟨Derived.nullable (hleaf _) htask rfl hsame, _, hnode⟩

end Stage.Borne

namespace Machine.Borne
variable {p : Place} {m m' : Machine τ} {r : Nat} {fragment : Fragment τ}

/-- a rule that is asked for and ends where it began -/
theorem nullable_of_serve? (hleaf : ∀ p, g.LeavesTell ignorables p) (h : m.Borne g ignorables p)
    (hidle : m.Idle) {limit : Nat}
    (hserve : m.serve? g ignorables limit (.rule r) = some (some fragment, m'))
    (hstill : m'.reader.offset = m.reader.offset) : g.Nullable (.rule r) := by
  obtain ⟨j, hl⟩ := h.vouched
  obtain ⟨j', -, -, -, -, hderived⟩ :=
    attested_of_serve? (j := { j with behind := [] }) hidle hl rfl hserve
  exact Derived.nullable (hleaf _) hderived rfl hstill

/-- a rule that is tried within another and ends where it began -/
theorem nullable_of_frame (hleaf : ∀ p, g.LeavesTell ignorables p) (h : m.Borne g ignorables p)
    {start : Place} (hwork : m.work = []) (hframe : m.frames.items.head? = some (.rule r start))
    (hresults : m.results = [some fragment]) (hstill : m.reader.offset = start.offset) :
    g.Nullable (.rule r) := by
  rcases h with ⟨hidle, -⟩ | ⟨⟨frames, task, l⟩, base, call, j, hat, hs⟩
  · rw [hidle.results] at hresults
    cases hresults
  · have hframes : m.frames.items = frames := hat.frames
    have htask := hat.task
    rw [hframes] at hframe
    obtain ⟨rest, rfl⟩ := List.head?_eq_some_iff.mp hframe
    cases task with
    | start node => cases htask.1.symm.trans hwork
    | deliver result =>
      cases htask.2.symm.trans hresults
      have hledger : m.ledger = l := hat.ledger
      subst hledger
      exact hs.nullable_of_rule hleaf hstill

end Machine.Borne

/-! ## the count of rounds that stood still -/

namespace Ledger

theorem stops_enter (l : Ledger τ) (rule : Nat) :
    (l.enter g rule).2.tally.zeroWidthStops = l.tally.zeroWidthStops := by
  cases hroot : g.root? rule with
  | none => rw [enter_undefined hroot]
  | some root =>
    cases hentry : l.known? (l.key rule) with
    | none =>
      rw [enter_absent hroot hentry, begun]
      split <;> rfl
    | some entry =>
      cases entry with
      | inProgress =>
        rw [enter_inProgress hroot hentry]
        rfl
      | done result stop =>
        rw [enter_done hroot hentry]
        rfl

theorem stops_start (l : Ledger τ) (node : Nat) :
    (l.start g ignorables node).2.tally.zeroWidthStops = l.tally.zeroWidthStops := by
  rw [start]
  cases hnode : g.nodes[node]? with
  | none => rfl
  | some found =>
    cases found with
    | sequence parts shape => cases parts <;> rfl
    | alternative choices shape => cases choices <;> rfl
    | repetition inner bound shape => rfl
    | optional inner => rfl
    | leaf source pattern role =>
      cases pattern with
      | none => rfl
      | some pattern =>
        show (l.readLeaf ignorables pattern role).2.tally.zeroWidthStops = _
        rw [readLeaf]
        cases l.reader.look? ignorables pattern <;> rfl
    | reference name rule =>
      cases rule with
      | none => rfl
      | some rule => exact l.stops_enter rule

theorem stops_endRepetition (l : Ledger τ) (bound : Bound) (shape : Shape τ) (count : Nat)
    (start : Place) (collected : List (Tree τ)) :
    (l.endRepetition bound shape count start collected).2.tally.zeroWidthStops =
      l.tally.zeroWidthStops := by
  rw [endRepetition]
  split <;> rfl

/-- only a round that has matched and stood still counts -/
theorem stops_resume (l : Ledger τ) (frame : Frame τ) (result : Option (Fragment τ)) :
    (l.resume frame result).2.tally.zeroWidthStops = l.tally.zeroWidthStops ∨
      ∃ inner bound shape count start before collected found,
        frame = .repetition inner bound shape count start before collected ∧
          result = some found ∧ l.reader.offset ≤ before.offset := by
  cases frame with
  | sequence todo shape start collected => cases todo <;> cases result <;> exact .inl rfl
  | alternative todo shape start => cases todo <;> cases result <;> exact .inl rfl
  | repetition inner bound shape count start before collected =>
    cases result with
    | none => exact .inl (l.stops_endRepetition bound shape count start collected)
    | some found =>
      by_cases hmoved : before.offset < l.reader.offset
      · rw [resume_moved hmoved]
        exact .inl rfl
      · exact .inr ⟨inner, bound, shape, count, start, before, collected, found, rfl, rfl,
          Nat.not_lt.mp hmoved⟩
  | optional => cases result <;> exact .inl rfl
  | rule rule start => exact .inl rfl

end Ledger

/-- the frame is that of the repetition with that number -/
def Frame.Repeats (g : Graph τ) (n : Nat) : Frame τ → Prop
  | .repetition inner bound shape _ _ _ _ => g.nodes[n]? = some (.repetition inner bound shape)
  | _ => False

namespace Machine
variable {m m' : Machine τ} {reader : Reader} {memoize : Bool} {found : List Match}

/-- what a step that counts has ended: a repetition of a nullable parser -/
theorem Visits.round (hleaf : ∀ p, g.LeavesTell ignorables p)
    (h : Visits g ignorables (fresh reader memoize) found m) (hgoes : Goes g ignorables m m') :
    m'.counters.zeroWidthStops = m.counters.zeroWidthStops ∨
      ∃ (frame : Frame τ) (n inner : Nat) (bound : Bound) (shape : Shape τ),
        m.frames.items.head? = some frame ∧ frame.Repeats g n ∧
          g.nodes[n]? = some (.repetition inner bound shape) ∧ g.nullable inner = true := by
  rcases h.borne with ⟨hidle, -⟩ | ⟨s, base, call, j, hat, hs⟩
  · exact absurd hgoes hidle.not_goes
  · obtain ⟨s', hstep, hat'⟩ := hat.goes hgoes
    have hafter : m'.counters.zeroWidthStops = s'.ledger.tally.zeroWidthStops :=
      congrArg (·.tally.zeroWidthStops) hat'.ledger
    have hbefore : m.counters.zeroWidthStops = s.ledger.tally.zeroWidthStops :=
      congrArg (·.tally.zeroWidthStops) hat.ledger
    rw [hafter, hbefore]
    cases hstep with
    | start frames node l =>
      rw [Stage.after_ledger]
      exact .inl (l.stops_start node)
    | resume frame frames result l =>
      rw [Stage.after_ledger]
      refine (l.stops_resume frame result).imp_right ?_
      rintro ⟨inner, bound, shape, count, start, before, collected, fragment, rfl, rfl, hstill⟩
      obtain ⟨hnullable, n, hnode⟩ := hs.nullable_of_round hleaf hstill
      refine ⟨.repetition inner bound shape count start before collected, n, inner, bound, shape, ?_,
        hnode, hnode, hnullable⟩
      rw [hat.frames]
      rfl

end Machine

end

/-! ## what is reported -/

namespace Grammar
variable {grammar : Grammar τ}

theorem mem_issues {r : Nat} {entry : RuleEntry} (hentry : grammar.compile.rules[r]? = some entry)
    (h : repeatsNullable grammar.compile.nodes
      (nullableNodes grammar.compile.nodes grammar.compile.roots) entry.root = true) :
    .nullableRepetition entry.name ∈ grammar.compile.issues := by
  obtain ⟨rule, hrule, hname, hroot⟩ := grammar.exists_definition hentry
  rw [compile_root?] at hroot
  rw [compile_roots] at h
  have hnamed : (grammar.definitions.map Rule.name)[r]? = some entry.name := by
    rw [List.getElem?_map, hrule, Option.map_some, hname]
  have hfound : (nullableRepetitions grammar.compile.nodes grammar.nodes.2.toArray).toList[r]? =
      some true := by
    rw [Array.getElem?_toList, nullableRepetitions, Array.getElem?_map, List.getElem?_toArray, hroot,
      Option.map_some, h]
  have hzip := (List.getElem?_zip_eq_some (z := (entry.name, true))).mpr ⟨hnamed, hfound⟩
  exact List.mem_append_right _ (List.mem_filterMap.mpr ⟨_, List.mem_of_getElem? hzip, rfl⟩)

/-- **A repetition of a nullable parser is reported for the rule that it is part of.** -/
theorem reported {n inner : Nat} {bound : Bound} {shape : Shape τ}
    (hnode : grammar.compile.nodes[n]? = some (.repetition inner bound shape))
    (hnullable : grammar.compile.nullable inner = true) :
    ∃ (r : Nat) (entry : RuleEntry), grammar.compile.rules[r]? = some entry ∧
      grammar.compile.Under entry.root n ∧
      .nullableRepetition entry.name ∈ grammar.compile.issues := by
  have hn := (Array.getElem?_eq_some_iff.mp hnode).1
  obtain ⟨r, ⟨root, hroot, hunder⟩, -⟩ := grammar.compile_wellFormed.owner hn
  have hlisted := (grammar.compile_indexed.listed hroot n).mpr hunder
  obtain ⟨entry, hentry, rfl⟩ := Option.map_eq_some_iff.mp hroot
  refine ⟨r, entry, hentry, hunder, mem_issues hentry ?_⟩
  refine List.any_eq_true.mpr ⟨_, List.mem_filterMap.mpr ⟨n, hlisted, hnode⟩, ?_⟩
  exact hnullable

theorem nullable_entry {r : Nat} (h : grammar.compile.Nullable (.rule r)) :
    ∃ entry, grammar.compile.rules[r]? = some entry ∧ entry.facts.nullable = true := by
  obtain ⟨root, hroot, hnullable⟩ := h
  obtain ⟨entry, hentry, rfl⟩ := Option.map_eq_some_iff.mp hroot
  exact ⟨entry, hentry, (facts_nullable hentry).2.trans hnullable⟩

end Grammar

namespace Machine
variable {grammar : Grammar τ} {ignorables : List Pattern} {m : Machine τ} {reader : Reader}
  {memoize : Bool} {found : List Match}

/-- nothing has stood still, or something is reported -/
theorem Visits.warned (hleaf : ∀ p, grammar.compile.LeavesTell ignorables p)
    (h : Visits grammar.compile ignorables (fresh reader memoize) found m) :
    m.counters.zeroWidthStops = 0 ∨
      ∃ entry ∈ grammar.compile.rules, .nullableRepetition entry.name ∈ grammar.compile.issues := by
  induction h with
  | first => exact .inl rfl
  | @request found m call _ hidle ih =>
    refine ih.imp_left fun hnone => ?_
    have hledger := (at_request (g := grammar.compile) hidle call).ledger
    have hsame : (m.request grammar.compile call).counters.zeroWidthStops =
        m.counters.zeroWidthStops := by
      refine (congrArg (·.tally.zeroWidthStops) hledger).trans ?_
      cases call with
      | parser node => rfl
      | rule rule =>
        show (Stage.after [] _).ledger.tally.zeroWidthStops = _
        rw [Stage.after_ledger]
        exact m.ledger.stops_enter rule
    exact hsame.trans hnone
  | @step found m m' hvisits hgoes ih =>
    rcases hvisits.round hleaf hgoes with hsame | ⟨-, n, inner, bound, shape, -, -, hnode, hinner⟩
    · exact ih.imp_left hsame.trans
    · obtain ⟨r, entry, hentry, -, hissue⟩ := Grammar.reported hnode hinner
      exact .inr ⟨entry, Array.mem_of_getElem? hentry, hissue⟩
  | @finish found m m' hvisits hend ih =>
    refine ih.imp_left fun hnone => ?_
    have hledger := (hvisits.finished hend).2.2
    exact (congrArg (·.tally.zeroWidthStops) hledger).trans hnone

end Machine

open Machine in
/-- **Where all patterns are steady, the analysis of nullability misses nothing.**  This holds in every
state that a machine comes through while it answers requests, with or without a memory, whatever is
ignorable.  A rule that matches without moving on is nullable, whether it is asked for or tried within
another; a step that counts a round without progress ends a repetition that is reported for the rule
it is part of; and nothing is counted without a report. -/
theorem nullability_misses_nothing (grammar : Grammar τ) (hsteady : grammar.compile.steady = true)
    (ignorables : List Pattern) (reader : Reader) (memoize : Bool) {found : List Match}
    {m : Machine τ} (h : Visits grammar.compile ignorables (fresh reader memoize) found m) :
    (∀ (limit r : Nat) (fragment : Fragment τ) (m' : Machine τ), m.Idle →
      m.serve? grammar.compile ignorables limit (.rule r) = some (some fragment, m') →
      m'.reader.offset = m.reader.offset →
      ∃ entry, grammar.compile.rules[r]? = some entry ∧ entry.facts.nullable = true) ∧
    (∀ (r : Nat) (start : Place) (fragment : Fragment τ), m.work = [] →
      m.frames.items.head? = some (.rule r start) → m.results = [some fragment] →
      m.reader.offset = start.offset →
      ∃ entry, grammar.compile.rules[r]? = some entry ∧ entry.facts.nullable = true) ∧
    (∀ m', Goes grammar.compile ignorables m m' →
      m'.counters.zeroWidthStops ≠ m.counters.zeroWidthStops →
      ∃ (frame : Frame τ) (n r : Nat) (entry : RuleEntry), m.frames.items.head? = some frame ∧
        frame.Repeats grammar.compile n ∧ grammar.compile.rules[r]? = some entry ∧
        grammar.compile.Under entry.root n ∧
        .nullableRepetition entry.name ∈ grammar.compile.issues) ∧
    (0 < m.counters.zeroWidthStops →
      ∃ entry ∈ grammar.compile.rules,
        .nullableRepetition entry.name ∈ grammar.compile.issues) := by
  have hleaf := grammar.compile.leavesTell_of_steady hsteady ignorables
  refine ⟨fun limit r fragment m' hidle hserve hstill => ?_,
    fun r start fragment hwork hframe hresults hstill => ?_, fun m' hgoes hcounted => ?_,
    fun hcounted => ?_⟩
  · exact Grammar.nullable_entry (h.borne.nullable_of_serve? hleaf hidle hserve hstill)
  · exact Grammar.nullable_entry (h.borne.nullable_of_frame hleaf hwork hframe hresults hstill)
  · obtain ⟨frame, n, inner, bound, shape, hframe, hrepeats, hnode, hinner⟩ :=
      (h.round hleaf hgoes).resolve_left hcounted
    obtain ⟨r, entry, hreported⟩ := Grammar.reported hnode hinner
    exact ⟨frame, n, r, entry, hframe, hrepeats, hreported⟩
  · exact (h.warned hleaf).resolve_left (Nat.pos_iff_ne_zero.mp hcounted)

end

namespace Brink

/-- `w` with that pattern, and `top ::= w*` -/
def grammar (pattern : String) : Grammar Unit :=
  (Grammar.empty.declare (({ name := "w" } : Rule.Draft Unit).hide pattern)).declare
    (({ name := "top" } : Rule.Draft Unit).many "w")

/-- a machine that has parsed nothing yet, at the start of `a` -/
def machine : Machine Unit := .fresh (Reader.first "a".toList) true

/-- with `y*`, both rules match before the letter without moving on; so `w` is nullable, and its
repetition is reported -/
theorem nullability_misses_nothing_of_star :
    (∃ entry, (grammar "y*").compile.rules[0]? = some entry ∧ entry.facts.nullable = true) ∧
      ∃ entry ∈ (grammar "y*").compile.rules,
        .nullableRepetition entry.name ∈ (grammar "y*").compile.issues := by
  have hsteady : (grammar "y*").compile.steady = true := by decide +kernel
  have hview : (machine.serve? (grammar "y*").compile [] 100 (.rule 0)).map (fun x =>
      (x.1.isSome, x.2.reader.offset)) = some (true, 0) := by decide +kernel
  have hview' : (machine.session? (grammar "y*").compile [] 100 [.rule 1]).map (fun x =>
      x.2.counters.zeroWidthStops) = some 1 := by decide +kernel
  obtain ⟨⟨result, m⟩, hm, hview⟩ := Option.map_eq_some_iff.mp hview
  obtain ⟨hsome, hoffset⟩ := Prod.mk.inj hview
  obtain ⟨fragment, rfl⟩ := Option.isSome_iff_exists.mp hsome
  obtain ⟨⟨replies, m'⟩, hm', hstops⟩ := Option.map_eq_some_iff.mp hview'
  have hidle := Machine.fresh_idle (τ := Unit) (Reader.first "a".toList) true
  obtain ⟨found, hvisits⟩ := Machine.Visits.first.session? hidle hm'
  constructor
  · exact (nullability_misses_nothing _ hsteady [] _ true .first).1 100 0 fragment m hidle hm hoffset
  · refine (nullability_misses_nothing _ hsteady [] _ true hvisits).2.2.2 ?_
    exact Nat.lt_of_lt_of_eq Nat.one_pos hstops.symm

/-- **With `\b`, the same happens, and nothing is known of it beforehand.**  The rule `w` matches before
the letter without moving on and is not nullable; and its repetition stands still without having been
reported. -/
theorem nullability_missed :
    (machine.serve? (grammar "\\b").compile [] 100 (.rule 0)).map
        (fun x => (x.1.isSome, x.2.reader.offset)) = some (true, machine.reader.offset) ∧
      ((grammar "\\b").compile.facts? "w").map Facts.nullable = some false ∧
      ((grammar "\\b").compile.run? 100 1 "a" { allowTrailing := true }).map
        (fun o => (o.result.isOk, o.counters.zeroWidthStops)) = some (true, 1) ∧
      (grammar "\\b").compile.issues = [] := by
  refine ⟨?_, ?_, ?_, ?_⟩ <;> decide +kernel

end Brink

end Packrat
