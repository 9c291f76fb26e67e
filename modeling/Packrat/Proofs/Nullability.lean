import Packrat.Proofs.Blocks
import Packrat.Proofs.Derivation
import Packrat.Proofs.Evidence
import Packrat.Proofs.Unaided

/-!
# What the analysis calls nullable

* `Graph.nullable`       whether the analysis calls a parser nullable;
* `Graph.LeavesTell`     a leaf that matches somewhere without moving on matches the empty text, too;
* `Derived.nullable`     then whatever matches there without moving on is nullable;
* `Parses.empty_text`    on the empty text, what fails without a memory is not nullable;
* `nullable_exact`       so with a memory that cuts nothing off, exactly the nullable rules match the
                         empty text, and with cuts no others do.
-/

namespace Packrat

section
variable {τ : Type}

namespace Graph
variable {g : Graph τ} {i : Nat}

/-- the analysis calls the parser with that number nullable -/
def nullable (g : Graph τ) (node : Nat) : Bool := isKnown (nullableNodes g.nodes g.roots) node

/-- the analysis calls what is asked for nullable -/
def Nullable (g : Graph τ) : Call → Prop
  | .parser node => g.nullable node = true
  | .rule rule => ∃ root, g.root? rule = some root ∧ g.nullable root = true

theorem nullable_eq {node : Node τ} (h : g.nodes[i]? = some node) :
    g.nullable i = node.isNullable g.roots (nullableNodes g.nodes g.roots) := by
  rw [nullable, isKnown_nullableNodes, nullableStep, h]

theorem nullable_absent (h : g.nodes[i]? = none) : g.nullable i = false := by
  rw [nullable, isKnown_nullableNodes, nullableStep, h]

theorem nullable_sequence {parts : List Nat} {shape : Shape τ}
    (h : g.nodes[i]? = some (.sequence parts shape)) : g.nullable i = parts.all g.nullable :=
  nullable_eq h

theorem nullable_alternative {choices : List Nat} {shape : Shape τ}
    (h : g.nodes[i]? = some (.alternative choices shape)) :
    g.nullable i = choices.any g.nullable :=
  nullable_eq h

theorem nullable_repetition {inner : Nat} {bound : Bound} {shape : Shape τ}
    (h : g.nodes[i]? = some (.repetition inner bound shape)) :
    g.nullable i = (bound == .zeroOrMore || g.nullable inner) := by
  rw [nullable_eq h]
  cases bound <;> rfl

theorem nullable_reference {name : String} {rule root : Nat}
    (h : g.nodes[i]? = some (.reference name (some rule))) (hroot : g.root? rule = some root) :
    g.nullable i = g.nullable root := by
  rw [nullable_eq h, Node.isNullable, getElem?_roots, hroot]
  rfl

/-- a leaf that matches at `p` without moving on matches the empty text, too -/
def LeavesTell (g : Graph τ) (ignorables : List Pattern) (p : Place) : Prop :=
  ∀ {node : Nat} {source : String} {pattern : Pattern} {role : Role τ} {found : Match} {q : Place},
    g.nodes[node]? = some (.leaf source (some pattern) role) →
    lookAlong? ignorables pattern p.rest p = some (found, q) → q.offset = p.offset →
    pattern.isNullable = true

end Graph

/-! ## what matches without moving on -/

section
variable {g : Graph τ} {ignorables : List Pattern} {p : Place}

mutual

/-- **What matches without moving on is nullable**, if the leaves tell. -/
theorem Derived.nullable {call : Call} {readings : List (Reading τ)} {start stop : Place}
    {r : Fragment τ} (hleaf : g.LeavesTell ignorables p) :
    Derived g ignorables call readings start stop r → start = p → stop.offset = p.offset →
      g.Nullable call
  | .leaf hnode hlook, hstart, hstop => by
    subst hstart
    exact (Graph.nullable_eq hnode).trans (hleaf hnode hlook hstop)
  | .sequence hnode h, hstart, hstop => by
    refine (Graph.nullable_sequence hnode).trans (List.all_eq_true.mpr ?_)
    exact Gathered.nullable hleaf h hstart hstop
  | .alternative hnode hchoice h, hstart, hstop => by
    refine (Graph.nullable_alternative hnode).trans (List.any_eq_true.mpr ⟨_, hchoice, ?_⟩)
    exact Derived.nullable hleaf h hstart hstop
  | @Derived.repetition _ _ _ _ _ count bound _ _ _ _ _ hnode h hcount, hstart, hstop => by
    refine (Graph.nullable_repetition hnode).trans ?_
    have hinner := Gathered.nullable hleaf h hstart hstop
    cases bound with
    | zeroOrMore => rfl
    | oneOrMore =>
      have hcount : count ≠ 0 := Nat.one_le_iff_ne_zero.mp hcount
      exact hinner _ (List.mem_replicate.mpr ⟨hcount, rfl⟩)
  | .optional hnode _, _, _ => Graph.nullable_eq hnode
  | .nothing hnode, _, _ => Graph.nullable_eq hnode
  | .reference hnode h, hstart, hstop => by
    obtain ⟨root, hroot, hnullable⟩ := Derived.nullable hleaf h hstart hstop
    exact (Graph.nullable_reference hnode hroot).trans hnullable
  | .rule hroot h, hstart, hstop => ⟨_, hroot, Derived.nullable hleaf h hstart hstop⟩

theorem Gathered.nullable {parts : List Nat} {readings : List (Reading τ)} {start stop : Place}
    {trees : List (Tree τ)} (hleaf : g.LeavesTell ignorables p) :
    Gathered g ignorables parts readings start stop trees → start = p → stop.offset = p.offset →
      ∀ part ∈ parts, g.nullable part = true
  | .nil, _, _ => fun _ hpart => nomatch hpart
  | @Gathered.snoc _ _ _ _ _ _ _ _ middle _ _ _ hparts hpart, hstart, hstop => by
    -- what lies between two places with one offset is at that place, too
    have hle : p ≤ middle := hstart ▸ hparts.le
    have hoffset : middle.offset = p.offset := by
      have hbefore := Place.offset_le hle
      have hafter := Place.offset_le hpart.le
      omega
    have hmiddle : middle = p := Place.le_ext hle (Place.le_refl p) hoffset
    have hearlier := Gathered.nullable hleaf hparts hstart hoffset
    have hlast := Derived.nullable hleaf hpart hmiddle hstop
    intro part hmem
    rcases List.mem_append.mp hmem with hmem | hmem
    · exact hearlier part hmem
    · rw [List.mem_singleton.mp hmem]
      exact hlast

end

end

/-! ## the empty text -/

/-- the only place of the empty text -/
theorem Place.eq_of_first_nil_le {q : Place} (h : Place.first [] ≤ q) : q = Place.first [] := by
  obtain ⟨passed, hrest, hoffset⟩ := h
  obtain ⟨hpassed, hq⟩ := List.append_eq_nil_iff.mp hrest.symm
  cases q with
  | mk offset rest =>
    rw [hpassed] at hoffset
    exact congr (congrArg Place.mk hoffset) hq

/-- no pattern skips anything in the empty text, so a leaf matches it if its pattern does -/
theorem isSome_lookAlong?_first (ignorables : List Pattern) (pattern : Pattern) :
    (lookAlong? ignorables pattern [] (Place.first [])).isSome = pattern.isNullable := by
  rw [lookAlong?, Pattern.matchAt?, Pattern.isNullable]
  cases pattern.expr.firstEnd? (Place.first []) <;> rfl

theorem Graph.leavesTell_first (g : Graph τ) (ignorables : List Pattern) :
    g.LeavesTell ignorables (Place.first []) := by
  intro node source pattern role found q _ hlook _
  rw [← isSome_lookAlong?_first ignorables]
  exact Option.isSome_iff_exists.mpr ⟨_, hlook⟩

section
variable {g : Graph τ} {ignorables : List Pattern}

theorem Reader.look?_first {reader reader' : Reader} {pattern : Pattern} {found : Match}
    (hreader : reader.place = Place.first [])
    (h : reader.look? ignorables pattern = some (found, reader')) :
    reader'.place = Place.first [] := by
  obtain ⟨q, hq, rfl⟩ := Reader.look?_eq_some.mp h
  rw [hreader] at hq
  exact Place.eq_of_first_nil_le (le_lookAlong? _ hq)

mutual

/-- **On the empty text, what fails is not nullable**, and nothing moves on. -/
theorem Parses.empty_text {node : Nat} {reader reader' : Reader} {result : Option (Fragment τ)} :
    Parses g ignorables node reader result reader' → reader.place = Place.first [] →
      reader'.place = Place.first [] ∧ (result = none → g.nullable node = false)
  | .absent hnode, hreader => ⟨hreader, fun _ => Graph.nullable_absent hnode⟩
  | .leaf _ hlook, hreader => ⟨Reader.look?_first hreader hlook, fun h => nomatch h⟩
  | @Parses.miss _ _ _ _ _ pattern _ _ hnode hlook, hreader => by
    refine ⟨hreader, fun _ => (Graph.nullable_eq hnode).trans ?_⟩
    have hnone := Reader.look?_eq_none.mp hlook
    rw [hreader] at hnone
    show pattern.isNullable = false
    rw [← isSome_lookAlong?_first ignorables]
    exact Option.isSome_eq_false_iff.mpr (Option.isNone_iff_eq_none.mpr hnone)
  | .invalid hnode, hreader => ⟨hreader, fun _ => Graph.nullable_eq hnode⟩
  | .sequence _ h, hreader => ⟨(ParsesAll.empty_text h hreader).1, fun h => nomatch h⟩
  | .broken hnode h, hreader =>
    ⟨hreader, fun _ => (Graph.nullable_sequence hnode).trans ((ParsesAll.empty_text h hreader).2 rfl)⟩
  | .alternative hnode h, hreader => by
    obtain ⟨hplace, hchoices⟩ := ParsesFirst.empty_text h hreader
    refine ⟨hplace, fun hresult => (Graph.nullable_alternative hnode).trans (hchoices ?_)⟩
    exact Option.map_eq_none_iff.mp hresult
  | .repetition _ _ _ h _, hreader => ⟨(ParsesRounds.empty_text h hreader).1, fun h => nomatch h⟩
  | @Parses.tooFew _ _ _ _ _ count bound _ _ _ _ hnode h hcount, hreader => by
    refine ⟨hreader, fun _ => (Graph.nullable_repetition hnode).trans ?_⟩
    have hinner := (ParsesRounds.empty_text h hreader).2
    cases bound with
    | zeroOrMore => exact absurd hcount (Nat.not_lt_zero count)
    | oneOrMore => exact hinner (Nat.lt_one_iff.mp hcount)
  | .optional _ _ h, hreader => ⟨(Parses.empty_text h hreader).1, fun h => nomatch h⟩
  | .reference _ hnode hroot h, hreader => by
    obtain ⟨hplace, hnone⟩ := Parses.empty_text h hreader
    exact ⟨hplace, fun hresult => (Graph.nullable_reference hnode hroot).trans (hnone hresult)⟩
  | .rootless hnode hroot, hreader => by
    refine ⟨hreader, fun _ => (Graph.nullable_eq hnode).trans ?_⟩
    rw [Node.isNullable, Graph.getElem?_roots, hroot]
  | .undefined hnode, hreader => ⟨hreader, fun _ => Graph.nullable_eq hnode⟩

theorem ParsesAll.empty_text {parts : List Nat} {reader reader' : Reader}
    {trees : Option (List (Tree τ))} :
    ParsesAll g ignorables parts reader trees reader' → reader.place = Place.first [] →
      reader'.place = Place.first [] ∧ (trees = none → parts.all g.nullable = false)
  | .nil, hreader => ⟨hreader, fun h => nomatch h⟩
  | .fail h, hreader => by
    obtain ⟨hplace, hpart⟩ := Parses.empty_text h hreader
    refine ⟨hplace, fun _ => ?_⟩
    rw [List.all_cons, hpart rfl, Bool.false_and]
  | .next _ _ h hmore, hreader => by
    obtain ⟨hplace, hparts⟩ := ParsesAll.empty_text hmore (Parses.empty_text h hreader).1
    refine ⟨hplace, fun htrees => ?_⟩
    rw [List.all_cons, hparts (Option.map_eq_none_iff.mp htrees), Bool.and_false]

theorem ParsesFirst.empty_text {choices : List Nat} {reader reader' : Reader}
    {result : Option (Fragment τ)} :
    ParsesFirst g ignorables choices reader result reader' → reader.place = Place.first [] →
      reader'.place = Place.first [] ∧ (result = none → choices.any g.nullable = false)
  | .nil, hreader => ⟨hreader, fun _ => rfl⟩
  | .hit h, hreader => ⟨(Parses.empty_text h hreader).1, fun h => nomatch h⟩
  | .next h hmore, hreader => by
    obtain ⟨hplace, hchoices⟩ := ParsesFirst.empty_text hmore hreader
    refine ⟨hplace, fun hresult => ?_⟩
    rw [List.any_cons, (Parses.empty_text h hreader).2 rfl, hchoices hresult, Bool.false_or]

theorem ParsesRounds.empty_text {inner count : Nat} {reader reader' : Reader}
    {trees : List (Tree τ)} :
    ParsesRounds g ignorables inner reader trees count reader' → reader.place = Place.first [] →
      reader'.place = Place.first [] ∧ (count = 0 → g.nullable inner = false)
  | .stop h, hreader => by
    obtain ⟨hplace, hinner⟩ := Parses.empty_text h hreader
    exact ⟨hplace, fun _ => hinner rfl⟩
  | .stall _ h _, hreader => ⟨(Parses.empty_text h hreader).1, fun h => nomatch h⟩
  | .round _ h _ hmore, hreader =>
    ⟨(ParsesRounds.empty_text hmore (Parses.empty_text h hreader).1).1, fun h => nomatch h⟩

end

end

/-! ## the facts of a rule -/

/-- the root of a rule, and the fact that the analysis found -/
theorem Grammar.facts_nullable {grammar : Grammar τ} {r : Nat} {entry : RuleEntry}
    (h : grammar.compile.rules[r]? = some entry) :
    grammar.compile.root? r = some entry.root ∧
      entry.facts.nullable = grammar.compile.nullable entry.root := by
  obtain ⟨rule, hrule, -, hroot⟩ := grammar.exists_definition h
  refine ⟨hroot, ?_⟩
  rw [getElem?_compile_rules hrule hroot] at h
  exact congrArg (·.facts.nullable) (Option.some.inj h).symm

section
variable {g : Graph τ} {options : Options} {rule root k : Nat} {result : Option (Fragment τ)}
  {l : Ledger τ}

/-- what matches the empty text with a memory is nullable -/
theorem Graph.nullable_of_opening {found : Fragment τ} (hroot : g.root? rule = some root)
    (h : Settles g (g.ignorablesFor options) k (g.opening rule "" options) (some found) l) :
    g.nullable root = true := by
  have hidle : (Machine.fresh (Reader.first "".toList) options.memoize : Machine τ).Idle :=
    Machine.fresh_idle _ _
  obtain ⟨m, -, -, hserve⟩ := Machine.serve?_of_settles hidle h
  obtain ⟨j, -, -, -, -, hderived⟩ := Machine.attested_of_serve? (j := {}) hidle
    (Machine.fresh_vouched _ _ _) rfl (hserve _ (Nat.lt_succ_self _))
  have hstop : m.reader.place = Place.first [] :=
    Place.eq_of_first_nil_le (Derived.le hderived)
  obtain ⟨root', hroot', hnullable⟩ := Derived.nullable (g.leavesTell_first _) hderived rfl
    (congrArg Place.offset hstop)
  cases hroot.symm.trans hroot'
  exact hnullable

/-- what fails on the empty text with a memory that cuts nothing off is not nullable -/
theorem Graph.not_nullable_of_opening (hmemo : options.memoize = true)
    (hroot : g.root? rule = some root) (hcuts : l.tally.recursionCuts = 0)
    (h : Settles g (g.ignorablesFor options) k (g.opening rule "" options) none l) :
    g.nullable root = false := by
  rw [opening, hmemo] at h
  have hmirrors := Mirrors.fresh g (g.ignorablesFor options) (Reader.first "".toList)
  obtain ⟨k₀, l₀, h₀, -⟩ := hmirrors.begin_off hcuts h
  -- without a memory nothing is known of the attempt, so it is made from the root
  change Settles g _ k₀ (Ledger.enter g rule _) none l₀ at h₀
  rw [Ledger.enter_absent hroot (Machine.fresh_known? _ _ _)] at h₀
  obtain ⟨i, l₁, h₁, -, -⟩ := h₀.rule_inv
  exact (Parses.empty_text (h₁.parses rfl) rfl).2 rfl

/-- on the empty text nothing is left after a match, so a match makes a tree -/
theorem Graph.isOk_of_opening
    (h : Settles g (g.ignorablesFor options) k (g.opening rule "" options) result l) :
    (g.seenOf rule "" options result l.reader).1.isOk = result.isSome := by
  have hwithin := (h.extends_begin (Machine.fresh_within _ _)).within.here
  have hplace : l.reader.place = Place.first [] := Place.eq_of_first_nil_le hwithin
  cases result with
  | none => rfl
  | some found =>
    have hend : l.reader.atEnd (g.ignorablesFor options) = true := by
      rw [Reader.atEnd, hplace]
      rfl
    rw [seenOf, resultOf, hend]
    rfl

end

/-- **On the empty text, the analysis is exact.**  With a memory, parsing the empty text with a rule
comes to one outcome, whatever is ignorable.  If the rule matches, it is nullable, even where a rule
begins with itself; and if nothing was cut off, a rule that is nullable matches. -/
theorem nullable_exact (grammar : Grammar τ) {r : Nat} {entry : RuleEntry}
    (hentry : grammar.compile.rules[r]? = some entry) (options : Options)
    (hmemo : options.memoize = true) :
    ∃ o : Outcome τ,
      (∀ outcome, (∃ limit, grammar.compile.run? limit r "" options = some outcome) ↔
        outcome = o) ∧
      (o.result.isOk = true → entry.facts.nullable = true) ∧
      (o.counters.recursionCuts = 0 → entry.facts.nullable = true → o.result.isOk = true) := by
  obtain ⟨hroot, hfacts⟩ := Grammar.facts_nullable hentry
  have hsome : (Machine.fresh (τ := τ) (Reader.first "".toList) options.memoize).ledger.memo.isSome =
      true := by
    rw [hmemo]
    rfl
  obtain ⟨k, result, l, h⟩ : Comes grammar.compile (grammar.compile.ignorablesFor options)
      (grammar.compile.opening r "" options) :=
    Ledger.comes_begin (fun i node hnode => grammar.operand_lt hnode) hsome
      (Machine.fresh_within _ _) (.rule r)
  obtain ⟨o, ho, hseen, htally⟩ := Graph.run?_iff_of_settles r "" options h
  have hok : o.result.isOk = result.isSome := by
    rw [← Graph.isOk_of_opening h, ← hseen]
  refine ⟨o, ho, fun hmatch => ?_, fun hcuts hnullable => ?_⟩
  · rw [hok] at hmatch
    obtain ⟨found, rfl⟩ := Option.isSome_iff_exists.mp hmatch
    rw [hfacts]
    exact Graph.nullable_of_opening hroot h
  · cases result with
    | some found => exact hok
    | none =>
      have hcuts' : l.tally.recursionCuts = 0 := by
        rw [← htally]
        exact hcuts
      have hnot := Graph.not_nullable_of_opening hmemo hroot hcuts' h
      rw [hfacts, hnot] at hnullable
      cases hnullable

end

namespace Circle

/-- `s ::= a b`, `a ::= b | "y*"`, `b ::= a` and `c ::= "y*"` -/
def grammar : Grammar Unit :=
  (((Grammar.empty.declare (({ name := "s" } : Rule.Draft Unit).call "a" |>.call "b")).declare
    (({ name := "a" } : Rule.Draft Unit).call "b" |>.or |>.hide "y*")).declare
    (({ name := "b" } : Rule.Draft Unit).call "a")).declare
    (({ name := "c" } : Rule.Draft Unit).hide "y*")

/-- what is seen of the empty text: whether the rule matches, and the number of cuts -/
def seen (r : Nat) : Option (Bool × Nat) :=
  (grammar.compile.run? 100 r "" {}).map fun o => (o.result.isOk, o.counters.recursionCuts)

/-- `a` matches after a cut, so it is nullable; `c` is nullable and nothing is cut off, so it matches.
With a cut this need not be so: `s` is nullable and fails, as `b` was cut off within `a`. -/
theorem nullable_exact_of_circle :
    (∃ entry, grammar.compile.rules[1]? = some entry ∧ entry.facts.nullable = true) ∧
      (∃ limit o, grammar.compile.run? limit 3 "" {} = some o ∧ o.counters.recursionCuts = 0 ∧
        o.result.isOk = true) ∧
      seen 1 = some (true, 1) ∧ seen 0 = some (false, 1) ∧
      (grammar.compile.facts? "s").map Facts.nullable = some true := by
  have hseen : seen 1 = some (true, 1) := by decide +kernel
  have hcuts : (grammar.compile.run? 100 3 "" {}).map (·.counters.recursionCuts) = some 0 := by
    decide +kernel
  have ha : (grammar.compile.rules[1]?).isSome = true := by decide +kernel
  have hc : (grammar.compile.rules[3]?).map (·.facts.nullable) = some true := by decide +kernel
  obtain ⟨a, ha⟩ := Option.isSome_iff_exists.mp ha
  obtain ⟨c, hc, hnullable⟩ := Option.map_eq_some_iff.mp hc
  refine ⟨⟨a, ha, ?_⟩, ?_, hseen, by decide +kernel, by decide +kernel⟩
  · obtain ⟨o, ho, hsound, -⟩ := nullable_exact grammar ha {} rfl
    obtain ⟨o', ho', hpair⟩ := Option.map_eq_some_iff.mp hseen
    cases (ho o').mp ⟨100, ho'⟩
    exact hsound (Prod.mk.inj hpair).1
  · obtain ⟨o, ho, -, hcomplete⟩ := nullable_exact grammar hc {} rfl
    obtain ⟨o', ho', hcuts⟩ := Option.map_eq_some_iff.mp hcuts
    cases (ho o').mp ⟨100, ho'⟩
    exact ⟨100, o, ho', hcuts, hcomplete hcuts hnullable⟩

end Circle

end Packrat
