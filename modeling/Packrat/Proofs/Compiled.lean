import Packrat.Proofs.Lowering
import Packrat.Proofs.Order
import Packrat.Proofs.Transparency

/-!
# Compiling keeps the meaning

* `Placed`              a block of nodes has its place among others;
* `layOut_ends`         blocks in a row end with the numbers given for them;
* `Step.stands_of_ends`, `Clause.stands_of_ends`, `Rule.stands_of_ends`
                        the last node of a block stands for what the block was made for;
* `Roll.Sound`          the table of names gives each rule that counts its place;
* `Grammar.compile_stands`   the graph of a grammar stands for it;
* `Grammar.compile_parse?`   parsing a text with a name comes to what the name reads;
* `compile_keeps_meaning`    without a memory, a rule of the graph matches as its name reads.
-/

namespace Packrat

/-! ## blocks of nodes -/

section
variable {τ β : Type}

/-- the nodes of the block have consecutive numbers from `base` on -/
def Placed (nodes : Array (Node τ)) (base : Nat) (block : List (Node τ)) : Prop :=
  ∀ i node, block[i]? = some node → nodes[base + i]? = some node

variable {nodes : Array (Node τ)} {base : Nat}

theorem Placed.left {s t : List (Node τ)} (h : Placed nodes base (s ++ t)) :
    Placed nodes base s := by
  intro i node hi
  refine h i node ?_
  rw [List.getElem?_append_left (List.getElem?_eq_some_iff.mp hi).1]
  exact hi

theorem Placed.right {s t : List (Node τ)} (h : Placed nodes base (s ++ t)) :
    Placed nodes (base + s.length) t := by
  intro i node hi
  rw [Nat.add_assoc]
  refine h (s.length + i) node ?_
  rw [List.getElem?_append_right (by omega), Nat.add_sub_cancel_left]
  exact hi

theorem Placed.head {node : Node τ} {block : List (Node τ)}
    (h : Placed nodes base (node :: block)) : nodes[base]? = some node := h 0 node rfl

/-- the node with the number `last` is the last of a block for `b` -/
def BlockEnds (nodes : Array (Node τ)) (block : Nat → β → List (Node τ)) (b : β) (last : Nat) :
    Prop :=
  ∃ base, Placed nodes base (block base b) ∧ last + 1 = base + (block base b).length

/-- the node for the whole is the last of its block -/
theorem Placed.last {s : List (Node τ)} {whole : Node τ} {last : Nat}
    (h : Placed nodes base (s ++ [whole])) (hlast : last + 1 = base + (s ++ [whole]).length) :
    nodes[last]? = some whole := by
  rw [List.length_append, List.length_singleton] at hlast
  have heq : last = base + s.length := by omega
  rw [heq]
  exact h.right.head

/-- blocks in a row end with the numbers given for them -/
theorem layOut_ends {block : Nat → β → List (Node τ)} (hpos : ∀ base b, 0 < (block base b).length)
    (bs : List β) (h : Placed nodes base (layOut block base bs).1) :
    List.Forall₂ (BlockEnds nodes block) bs (layOut block base bs).2 := by
  induction bs generalizing base with
  | nil => exact .nil
  | cons b bs ih =>
    refine .cons ⟨base, h.left, ?_⟩ (ih h.right)
    have := hpos base b
    omega

end

section
variable {τ : Type} {g : Graph τ} {index : String → Option Nat}

theorem Clause.result_eq_assembly (c : Clause τ) : c.result = c.assembly := by
  rw [Clause.result, Clause.assembly]
  cases c.shape with
  | some shape => rfl
  | none =>
    match c.steps with
    | [] => rfl
    | [s] => rfl
    | s :: t :: ss => simp

theorem refers_range' (hindex : ∀ name, g.ruleIndex? name = index name) {base : Nat}
    (names : List String)
    (h : Placed g.nodes base (names.map fun name => .reference name (index name))) :
    List.Forall₂ g.Refers names (List.range' base names.length) := by
  induction names generalizing base with
  | nil => exact .nil
  | cons name names ih =>
    refine .cons ?_ (ih (Placed.right (s := [_]) h))
    rw [Graph.Refers, hindex]
    exact h.head

theorem Step.stands_of_ends (hindex : ∀ name, g.ruleIndex? name = index name) {s : Step τ}
    {last : Nat} (h : BlockEnds g.nodes (Step.nodes index) s last) : s.Stands g last := by
  obtain ⟨base, hplaced, hlast⟩ := h
  have hrefers : ∀ name n, g.nodes[n]? = some (.reference name (index name)) → g.Refers name n := by
    intro name n hn
    rw [Graph.Refers, hindex]
    exact hn
  cases s with
  | leaf source role => exact Placed.last (s := []) hplaced hlast
  | call name => exact hrefers name last (Placed.last (s := []) hplaced hlast)
  | repetition name bound shape =>
    exact ⟨base, Placed.last (s := [_]) hplaced hlast, hrefers name base hplaced.head⟩
  | maybe name =>
    exact ⟨base, Placed.last (s := [_]) hplaced hlast, hrefers name base hplaced.head⟩
  | anyOf names => exact ⟨_, hplaced.last hlast, refers_range' hindex names hplaced.left⟩

theorem Clause.stands_of_ends (hindex : ∀ name, g.ruleIndex? name = index name) {c : Clause τ}
    {last : Nat} (h : BlockEnds g.nodes (Clause.nodes index) c last) : c.Stands g last := by
  obtain ⟨base, hplaced, hlast⟩ := h
  have hsteps := layOut_ends (Step.nodes_pos index) c.steps hplaced.left
  refine ⟨_, ?_, hsteps.imp fun s n => Step.stands_of_ends hindex⟩
  rw [← c.result_eq_assembly]
  exact hplaced.last hlast

variable (index) in
/-- a choice is made only if there is not exactly one clause -/
theorem Rule.nodes_eq (base : Nat) (rule : Rule τ) :
    (∃ c, rule.clauses = [c] ∧ rule.nodes index base = c.nodes index base) ∨
      rule.nodes index base = (layOut (Clause.nodes index) base rule.clauses).1 ++
        [.alternative (layOut (Clause.nodes index) base rule.clauses).2 .first] := by
  obtain ⟨name, clauses⟩ := rule
  match clauses with
  | [] => exact .inr rfl
  | [c] => exact .inl ⟨c, rfl, List.append_nil _⟩
  | c :: d :: cs => exact .inr rfl

variable (index) in
theorem Rule.nodes_pos (base : Nat) (rule : Rule τ) : 0 < (rule.nodes index base).length := by
  rcases Rule.nodes_eq index base rule with ⟨c, -, h⟩ | h
  · rw [h]
    exact c.nodes_pos index base
  · rw [h, List.length_append]
    exact Nat.succ_pos _

theorem Rule.stands_of_ends (hindex : ∀ name, g.ruleIndex? name = index name) {rule : Rule τ}
    {last : Nat} (h : BlockEnds g.nodes (Rule.nodes index) rule last) : rule.Stands g last := by
  obtain ⟨base, hplaced, hlast⟩ := h
  rcases Rule.nodes_eq index base rule with ⟨c, hclauses, hnodes⟩ | hnodes
  · rw [hnodes] at hplaced hlast
    refine ⟨[last], ?_, .inl rfl⟩
    rw [hclauses]
    exact .cons (Clause.stands_of_ends hindex ⟨base, hplaced, hlast⟩) .nil
  · rw [hnodes] at hplaced hlast
    have hchoices := layOut_ends (Clause.nodes_pos index) rule.clauses hplaced.left
    exact ⟨_, hchoices.imp fun c n => Clause.stands_of_ends hindex, .inr (hplaced.last hlast)⟩

end

/-! ## the rules that count -/

section
variable {τ : Type} {roll : Roll τ} {rule : Rule τ}

/-- the table gives each name the place of its rule among those that count -/
structure Roll.Sound (roll : Roll τ) : Prop where
  table : roll.numbers = (roll.definitions.map Rule.name).zipIdx.reverse
  lookup : ∀ name, roll.numbers.lookup name =
    roll.definitions.findIdx? fun rule => rule.name == name

namespace Roll.Sound

theorem empty : Roll.Sound (τ := τ) {} := ⟨rfl, fun _ => rfl⟩

theorem isSome (h : roll.Sound) (name : String) :
    (roll.numbers.lookup name).isSome = roll.definitions.any fun rule => rule.name == name := by
  rw [h.lookup, List.findIdx?_isSome]

/-- a rule whose name has a number does not count -/
theorem add_late (h : roll.Sound)
    (hlate : (roll.definitions.any fun r => r.name == rule.name) = true) :
    roll.add rule = { roll with duplicates := roll.duplicates ++ [rule.name] } := by
  rw [Roll.add, h.isSome, if_pos hlate]

theorem add_new (h : roll.Sound)
    (hnew : (roll.definitions.any fun r => r.name == rule.name) = false) :
    roll.add rule = { roll with
      numbers := (rule.name, roll.definitions.length) :: roll.numbers
      definitions := roll.definitions ++ [rule] } := by
  rw [Roll.add, h.isSome, if_neg (Bool.eq_false_iff.mp hnew)]

theorem add (h : roll.Sound) (rule : Rule τ) : (roll.add rule).Sound := by
  cases hlate : roll.definitions.any fun r => r.name == rule.name with
  | true =>
    rw [h.add_late hlate]
    exact ⟨h.table, h.lookup⟩
  | false =>
    rw [h.add_new hlate]
    refine ⟨?_, fun name => ?_⟩
    · simp [h.table, List.zipIdx_append]
    · rw [List.lookup_cons, List.findIdx?_append, ← h.lookup, List.findIdx?_singleton]
      by_cases hname : rule.name = name
      · -- the name had no number, so its place is the new one
        have hnone := h.isSome rule.name
        rw [hlate, Option.isSome_eq_false_iff, Option.isNone_iff_eq_none] at hnone
        subst hname
        simp [hnone]
      · have hne : (name == rule.name) = false := by simpa using Ne.symm hname
        simp [hne, hname]

theorem addAll (h : roll.Sound) (rules : List (Rule τ)) : (rules.foldl Roll.add roll).Sound := by
  induction rules generalizing roll with
  | nil => exact h
  | cons rule rules ih => exact ih (h.add rule)

theorem find?_addAll (h : roll.Sound) (name : String) (rules : List (Rule τ)) :
    (rules.foldl Roll.add roll).definitions.find? (fun rule => rule.name == name) =
      (roll.definitions.find? fun rule => rule.name == name).or
        (rules.find? fun rule => rule.name == name) := by
  induction rules generalizing roll with
  | nil => simp
  | cons rule rules ih =>
    rw [List.foldl_cons, ih (h.add rule), List.find?_cons]
    cases hlate : roll.definitions.any fun r => r.name == rule.name with
    | true =>
      rw [h.add_late hlate]
      cases hname : rule.name == name with
      | true =>
        -- the name had its rule before, and the new one does not count
        rw [beq_iff_eq.mp hname, List.any_eq_true, ← List.find?_isSome] at hlate
        obtain ⟨first, hfirst⟩ := Option.isSome_iff_exists.mp hlate
        rw [hfirst]
        rfl
      | false => rfl
    | false =>
      rw [h.add_new hlate, List.find?_append, List.find?_singleton, Option.or_assoc]
      cases hname : rule.name == name with
      | true => simp
      | false => simp

end Roll.Sound

end

/-! ## the rules of a graph -/

namespace Grammar
variable {τ : Type} (grammar : Grammar τ)

theorem sound_roll : grammar.roll.Sound := Roll.Sound.empty.addAll grammar.rules

/-- the number of a name is the place of its rule -/
theorem index_eq (name : String) :
    grammar.index name = grammar.definitions.findIdx? fun rule => rule.name == name :=
  grammar.sound_roll.lookup name

/-- of the rules that have a name, the one that counts is the first -/
theorem find?_definitions (name : String) :
    grammar.definitions.find? (fun rule => rule.name == name) = grammar.rule? name :=
  Roll.Sound.empty.find?_addAll name grammar.rules

theorem placed_nodes : Placed grammar.compile.nodes 0 grammar.nodes.1 := by
  intro i node hi
  rw [Nat.zero_add]
  show grammar.nodes.1.toArray[i]? = some node
  rw [List.getElem?_toArray]
  exact hi

theorem ends_roots : List.Forall₂ (BlockEnds grammar.compile.nodes (Rule.nodes grammar.index))
    grammar.definitions grammar.nodes.2 :=
  layOut_ends (Rule.nodes_pos grammar.index) grammar.definitions grammar.placed_nodes

/-- the names, roots and facts of the rules, side by side -/
theorem exists_compile_rules : ∃ facts : List Facts,
    grammar.compile.rules = (((grammar.definitions.map Rule.name).zip
      (grammar.nodes.2.zip facts)).map fun x => RuleEntry.mk x.1 x.2.1 x.2.2).toArray ∧
    facts.length = grammar.nodes.2.length := by
  refine ⟨_, rfl, ?_⟩
  simp [analyze]

theorem compile_ruleIndex? (name : String) :
    grammar.compile.ruleIndex? name = grammar.index name := rfl

theorem compile_root? (i : Nat) : grammar.compile.root? i = grammar.nodes.2[i]? := by
  obtain ⟨facts, hrules, hfacts⟩ := grammar.exists_compile_rules
  have hlength := grammar.ends_roots.length_eq
  rw [Graph.root?, hrules, List.getElem?_toArray, List.getElem?_map, Option.map_map]
  have hfun : (RuleEntry.root ∘ fun x : String × Nat × Facts => RuleEntry.mk x.1 x.2.1 x.2.2) =
      Prod.fst ∘ Prod.snd := rfl
  rw [hfun, ← Option.map_map, ← List.getElem?_map, ← List.getElem?_map,
    List.map_snd_zip (by simp [hlength, hfacts]), List.map_fst_zip (by simp [hfacts])]

theorem compile_ruleName {name : String} {i : Nat} (h : grammar.compile.ruleIndex? name = some i) :
    grammar.compile.ruleName i = name := by
  rw [compile_ruleIndex?, index_eq] at h
  obtain ⟨hi, hname, -⟩ := List.findIdx?_eq_some_iff_getElem.mp h
  obtain ⟨facts, hrules, hfacts⟩ := grammar.exists_compile_rules
  have hlength := grammar.ends_roots.length_eq
  rw [Graph.ruleName, hrules, List.getElem?_toArray, List.getElem?_map, Option.map_map]
  have hfun : (RuleEntry.name ∘ fun x : String × Nat × Facts => RuleEntry.mk x.1 x.2.1 x.2.2) =
      Prod.fst := rfl
  rw [hfun, ← List.getElem?_map, List.map_fst_zip (by simp [hlength, hfacts]), List.getElem?_map,
    List.getElem?_eq_getElem hi]
  simpa using hname

/-- **The graph of a grammar stands for it.** -/
theorem compile_stands : grammar.Stands grammar.compile := by
  have hindex := grammar.compile_ruleIndex?
  constructor
  · intro name hrule
    rw [hindex, index_eq, List.findIdx?_eq_none_iff]
    rw [← grammar.find?_definitions, List.find?_eq_none] at hrule
    intro rule hmem
    simpa using hrule rule hmem
  · intro name rule hrule
    rw [← grammar.find?_definitions, List.find?_eq_some_iff_getElem] at hrule
    obtain ⟨hname, i, hi, rfl, hbefore⟩ := hrule
    obtain ⟨hlength, hends⟩ := List.forall₂_iff_get.mp grammar.ends_roots
    have hi' : i < grammar.nodes.2.length := hlength ▸ hi
    refine ⟨i, grammar.nodes.2[i], ?_, ?_, Rule.stands_of_ends hindex (hends i hi hi')⟩
    · rw [hindex, index_eq, List.findIdx?_eq_some_iff_getElem]
      exact ⟨hi, hname, fun j hj => by simpa using hbefore j hj⟩
    · rw [grammar.compile_root?, List.getElem?_eq_getElem hi']

/-- the patterns of ignorable text under these options: those declared with the grammar, as far as they
are patterns, unless the options give others -/
def ignorablesFor (options : Options) : List Pattern :=
  options.ignorables.getD
    (grammar.ignorables.filterMap fun source => (Pattern.anchored source).toOption)

/-- what is seen of parsing a text with a name, given its result and the reader after it: a tree, if
nothing but ignorable text is left or more is allowed, the offset, and whether the text goes on -/
def seenOf (name text : String) (options : Options) (reader : Reader) :
    Option (Fragment τ) → Except ParseError (Tree τ) × Nat × Bool
  | none =>
    (.error (.noMatch name (positionOf text.toList reader.furthest)
      (previewAt text.toList reader.furthest)), reader.offset, false)
  | some found =>
    let significant := reader.significantOffset (grammar.ignorablesFor options)
    if reader.atEnd (grammar.ignorablesFor options) then (.ok found.tree, reader.offset, false)
    else if options.allowTrailing then (.ok found.tree, reader.offset, true)
    else
      (.error (.trailingInput (positionOf text.toList significant)
        (previewAt text.toList significant)), reader.offset, true)

theorem compile_seenOf {name : String} {i : Nat} (h : grammar.compile.ruleIndex? name = some i)
    (text : String) (options : Options) (memoize : Bool) (result : Option (Fragment τ))
    (reader : Reader) :
    grammar.compile.seenOf i text { options with memoize := memoize } result reader =
      grammar.seenOf name text options reader result := by
  cases result with
  | none =>
    show (Except.error (ParseError.noMatch (grammar.compile.ruleName i) _ _), _, _) = _
    rw [grammar.compile_ruleName h]
    rfl
  | some found =>
    rw [Graph.seenOf, seenOf]
    show (Graph.resultOf _ i _ _ _ reader (!reader.atEnd (grammar.ignorablesFor options)) _, _,
      !reader.atEnd (grammar.ignorablesFor options)) = _
    rw [Graph.resultOf]
    cases reader.atEnd (grammar.ignorablesFor options) with
    | true => rfl
    | false =>
      show (if (true && !options.allowTrailing) = true then _ else _, _, _) = _
      cases options.allowTrailing <;> rfl

/-- with a memory or without one, parsing a text settles as the name reads it -/
theorem compile_opening {name : String} {i : Nat} (h : grammar.compile.ruleIndex? name = some i)
    {text : String} {options : Options} {result : Option (Fragment τ)} {reader : Reader}
    (hreads : Reads grammar (grammar.ignorablesFor options) name (Reader.first text.toList) result
      reader) :
    ∃ k l, Settles grammar.compile (grammar.ignorablesFor options) k
      (grammar.compile.opening i text options) result l ∧ l.reader = reader := by
  have hfree : ∃ k l, Settles grammar.compile (grammar.ignorablesFor options) k
      ((Machine.fresh (Reader.first text.toList) false).ledger.enter grammar.compile i) result l ∧
        l.reader = reader := (grammar.compile_stands.settles_iff h rfl).mpr hreads
  rw [Graph.opening]
  cases options.memoize with
  | false => exact hfree
  | true =>
    obtain ⟨k, l, hk, rfl⟩ := hfree
    have hbegin : Settles grammar.compile (grammar.ignorablesFor options) k
        ((Machine.fresh (Reader.first text.toList) false).ledger.begin grammar.compile
          (grammar.ignorablesFor options) (.rule i)) result l := hk
    obtain ⟨k', l', hk', hl'⟩ := (Mirrors.fresh _ _ _).begin_on hbegin
    exact ⟨k', l', hk', hl'.reader.symm⟩

/-- **Parsing a text with a name comes to what the name reads**, with a memory or without one, and
to nothing else. -/
theorem compile_parse? {name : String} {i : Nat} (h : grammar.compile.ruleIndex? name = some i)
    {text : String} {options : Options} {result : Option (Fragment τ)} {reader : Reader}
    (hreads : Reads grammar (grammar.ignorablesFor options) name (Reader.first text.toList) result
      reader) (outcome : Except ParseError (Tree τ)) :
    (∃ limit, grammar.compile.parse? limit name text options = some outcome) ↔
      outcome = (grammar.seenOf name text options reader result).1 := by
  obtain ⟨k, l, hk, rfl⟩ := grammar.compile_opening h hreads
  have hparse : ∀ limit, grammar.compile.parse? limit name text options =
      (grammar.compile.run? limit i text options).map Outcome.result := by
    intro limit
    rw [Graph.parse?, h]
  have hseen := grammar.compile_seenOf h text options options.memoize result l.reader
  constructor
  · rintro ⟨limit, hlimit⟩
    rw [hparse] at hlimit
    obtain ⟨o, hrun, rfl⟩ := Option.map_eq_some_iff.mp hlimit
    obtain ⟨k', result', l', hk', -, hseen'⟩ := Graph.shows_iff.mp ⟨limit, o, hrun, rfl, rfl⟩
    obtain ⟨-, rfl, rfl⟩ := hk.unique hk'
    exact congrArg Prod.fst (hseen'.symm.trans hseen)
  · rintro rfl
    obtain ⟨limit, o, hrun, -, ho⟩ := Graph.shows_iff.mpr ⟨k, result, l, hk, rfl, hseen⟩
    refine ⟨limit, ?_⟩
    rw [hparse, hrun]
    exact congrArg some (congrArg Prod.fst ho)

theorem rule?_eq_none {name : String} :
    grammar.rule? name = none ↔ ∀ rule ∈ grammar.rules, rule.name ≠ name := by
  rw [rule?, List.find?_eq_none]
  constructor
  · intro h rule hrule hname
    exact h rule hrule (by simpa using hname)
  · intro h rule hrule hname
    exact h rule hrule (by simpa using hname)

end Grammar

/-- **Compiling keeps the meaning of a grammar.**  A rule has a number exactly if its name is declared.
Without a memory, a rule comes to a result exactly if its name reads it, with the same reader
afterwards; so parsing a text shows what the name says, and ends only if the name says something. -/
theorem compile_keeps_meaning {τ : Type} (grammar : Grammar τ) (name : String) :
    (grammar.compile.ruleIndex? name = none ↔ ∀ rule ∈ grammar.rules, rule.name ≠ name) ∧
    ∀ i, grammar.compile.ruleIndex? name = some i → ∀ (text : String) (options : Options),
      (∀ result reader,
        (∃ limit m, (Machine.first text.toList false).evaluateRule? grammar.compile
            (grammar.ignorablesFor options) limit i = some (result, m) ∧ m.reader = reader) ↔
          Reads grammar (grammar.ignorablesFor options) name (Reader.first text.toList) result
            reader) ∧
      ∀ seen,
        (∃ limit o, grammar.compile.run? limit i text { options with memoize := false } = some o ∧
            (o.result, o.consumed, o.trailing) = seen) ↔
          ∃ result reader, Reads grammar (grammar.ignorablesFor options) name
              (Reader.first text.toList) result reader ∧
            grammar.seenOf name text options reader result = seen := by
  have hg := grammar.compile_stands
  constructor
  · rw [← grammar.rule?_eq_none]
    constructor
    · intro hnone
      refine hg.rule_eq_none fun i hi => ?_
      rw [hnone] at hi
      cases hi
    · exact hg.undefined
  · intro i hindex text options
    have hidle : (Machine.first text.toList false : Machine τ).Idle := ⟨rfl, rfl, rfl⟩
    -- the machine and the graph agree on what settles, the graph and the grammar on what is read
    have hsettles : ∀ result reader, (∃ k l, Settles grammar.compile
        (grammar.ignorablesFor options) k ((Machine.first text.toList false).ledger.enter
          grammar.compile i) result l ∧ l.reader = reader) ↔
        Reads grammar (grammar.ignorablesFor options) name (Reader.first text.toList) result
          reader := fun result reader => hg.settles_iff hindex rfl
    constructor
    · intro result reader
      rw [← hsettles]
      constructor
      · rintro ⟨limit, m, h, rfl⟩
        have hserve : (Machine.first text.toList false).serve? grammar.compile
            (grammar.ignorablesFor options) limit (.rule i) = some (result, m) := h
        obtain ⟨-, k, hk⟩ := Machine.settles_of_serve? hidle hserve
        exact ⟨k, m.ledger, hk, rfl⟩
      · rintro ⟨k, l, hk, rfl⟩
        have hbegin : Settles grammar.compile (grammar.ignorablesFor options) k
            ((Machine.first text.toList false).ledger.begin grammar.compile
              (grammar.ignorablesFor options) (.rule i)) result l := hk
        obtain ⟨m, -, rfl, hserve⟩ := Machine.serve?_of_settles hidle hbegin
        exact ⟨2 * k + 2, m, hserve _ (by omega), rfl⟩
    · intro seen
      constructor
      · rintro ⟨limit, o, hrun, hseen⟩
        obtain ⟨k, result, l, hk, -, hl⟩ := Graph.shows_iff.mp ⟨limit, o, hrun, rfl, hseen⟩
        rw [grammar.compile_seenOf hindex] at hl
        exact ⟨result, l.reader, (hsettles _ _).mp ⟨k, l, hk, rfl⟩, hl⟩
      · rintro ⟨result, reader, hreads, hseen⟩
        obtain ⟨k, l, hk, rfl⟩ := (hsettles _ _).mpr hreads
        rw [← grammar.compile_seenOf hindex text options false] at hseen
        have hshows : grammar.compile.Shows i text { options with memoize := false } _ seen :=
          Graph.shows_iff.mpr ⟨k, result, l, hk, rfl, hseen⟩
        obtain ⟨limit, o, hrun, -, hseen'⟩ := hshows
        exact ⟨limit, o, hrun, hseen'⟩

/-! ## a grammar with loose ends -/

namespace Loose

/-- `a ::= nowhere | "(" | b "x"`, where nothing is called `nowhere` and `(` is no pattern;
`b ::= "y"`; and a second `a ::= "y"` that does not count -/
def grammar : Grammar Unit :=
  ((Grammar.empty.declare
    (({ name := "a" } : Rule.Draft Unit).call "nowhere" |>.or |>.hide "(" |>.or |>.call "b"
      |>.hide "x")).declare (({ name := "b" } : Rule.Draft Unit).hide "y")).declare
    (({ name := "a" } : Rule.Draft Unit).hide "y")

/-- the name reads both characters of the text `yx`, as the rule does -/
theorem compile_keeps_meaning_of_name :
    ∃ limit o result reader, grammar.compile.run? limit 0 "yx" { memoize := false } = some o ∧
      o.consumed = 2 ∧ Reads grammar [] "a" (Reader.first "yx".toList) result reader ∧
      grammar.seenOf "a" "yx" {} reader result = (o.result, o.consumed, o.trailing) := by
  have hindex : grammar.compile.ruleIndex? "a" = some 0 := by decide +kernel
  have hrun : (grammar.compile.run? 100 0 "yx" { memoize := false }).map (·.consumed) = some 2 := by
    decide +kernel
  obtain ⟨o, ho, hconsumed⟩ := Option.map_eq_some_iff.mp hrun
  obtain ⟨result, reader, hreads, hseen⟩ :=
    (((compile_keeps_meaning grammar "a").2 0 hindex "yx" {}).2 _).mp ⟨100, o, ho, rfl⟩
  exact ⟨100, o, result, reader, ho, hconsumed, hreads, hseen⟩

end Loose

end Packrat
