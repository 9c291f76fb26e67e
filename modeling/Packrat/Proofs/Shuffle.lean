import Mathlib.Data.List.Nodup
import Packrat.Proofs.Compiled
import Packrat.Proofs.Foresight

/-!
# The order of rules does not matter

* `SamePart`            numbers of two graphs that stand for the same rule, clause, step or name;
* `SameRule`            numbers of rules with the same name;
* `Grammar.Shuffled`    the same rules in another order, with names that differ;
* `Grammar.Shuffled.twins`   the graphs are the same under other numbers;
* `order_irrelevant`    so outcomes, facts and issues are the same.
-/

namespace Packrat

/-! ## parts of grammars -/

section
variable {τ : Type}

theorem Rule.nodes_single (index : String → Option Nat) {r : Rule τ} {c : Clause τ}
    (h : r.clauses = [c]) (base : Nat) : r.nodes index base = c.nodes index base := by
  obtain ⟨name, clauses⟩ := r
  cases h
  exact List.append_nil _

/-- the two numbers stand for the same rule, clause, step or name -/
inductive SamePart (nodes nodes' : Array (Node τ)) (index index' : String → Option Nat) :
    Nat → Nat → Prop
  | rule {i j : Nat} (r : Rule τ) : BlockEnds nodes (Rule.nodes index) r i →
      BlockEnds nodes' (Rule.nodes index') r j → SamePart nodes nodes' index index' i j
  | clause {i j : Nat} (c : Clause τ) : BlockEnds nodes (Clause.nodes index) c i →
      BlockEnds nodes' (Clause.nodes index') c j → SamePart nodes nodes' index index' i j
  | step {i j : Nat} (s : Step τ) : BlockEnds nodes (Step.nodes index) s i →
      BlockEnds nodes' (Step.nodes index') s j → SamePart nodes nodes' index index' i j
  | name {i j : Nat} (name : String) : nodes[i]? = some (.reference name (index name)) →
      nodes'[j]? = some (.reference name (index' name)) → SamePart nodes nodes' index index' i j

/-- the two numbers are those of rules with one name -/
def SameRule (index index' : String → Option Nat) (r s : Nat) : Prop :=
  ∃ name, index name = some r ∧ index' name = some s

variable {nodes nodes' : Array (Node τ)} {index index' : String → Option Nat} {i j : Nat}

/-- the two numbers stand for parsers that are the same but for numbers -/
def LikeAt (nodes nodes' : Array (Node τ)) (index index' : String → Option Nat) (i j : Nat) : Prop :=
  ∃ a b, nodes[i]? = some a ∧ nodes'[j]? = some b ∧
    a.Like (SamePart nodes nodes' index index') (SameRule index index') b

/-- what stands for the same, stands for it side by side -/
theorem forall₂_of_both {α : Type} {P Q : α → Nat → Prop} {N : Nat → Nat → Prop} {xs : List α}
    {is js : List Nat} (hi : List.Forall₂ P xs is) (hj : List.Forall₂ Q xs js)
    (hN : ∀ {x i j}, P x i → Q x j → N i j) : List.Forall₂ N is js := by
  induction hi generalizing js with
  | nil =>
    cases hj
    exact .nil
  | cons hx _ ih =>
    cases hj with
    | cons hx' hj => exact .cons (hN hx hx') (ih hj)

section
variable (hindex : ∀ name, (index name).isSome = (index' name).isSome)
include hindex

theorem likeAt_name (name : String) (hi : nodes[i]? = some (.reference name (index name)))
    (hj : nodes'[j]? = some (.reference name (index' name))) : LikeAt nodes nodes' index index' i j := by
  have hsome := hindex name
  refine ⟨_, _, hi, hj, ?_⟩
  cases hr : index name with
  | none =>
    have hs : index' name = none := by
      rw [hr] at hsome
      exact Option.isSome_eq_false_iff.mp hsome.symm |> Option.isNone_iff_eq_none.mp
    rw [hs]
    exact .undefined name
  | some r =>
    rw [hr] at hsome
    obtain ⟨s, hs⟩ := Option.isSome_iff_exists.mp hsome.symm
    rw [hs]
    exact .reference name ⟨name, hr, hs⟩

omit hindex in
theorem sameParts_range' {base base' : Nat} (names : List String)
    (h : Placed nodes base (names.map fun name => .reference name (index name)))
    (h' : Placed nodes' base' (names.map fun name => .reference name (index' name))) :
    List.Forall₂ (SamePart nodes nodes' index index') (List.range' base names.length)
      (List.range' base' names.length) := by
  induction names generalizing base base' with
  | nil => exact .nil
  | cons name names ih =>
    exact .cons (.name name h.head h'.head) (ih (Placed.right (s := [_]) h) (Placed.right (s := [_]) h'))

theorem likeAt_step (s : Step τ) (hi : BlockEnds nodes (Step.nodes index) s i)
    (hj : BlockEnds nodes' (Step.nodes index') s j) : LikeAt nodes nodes' index index' i j := by
  obtain ⟨base, hplaced, hlast⟩ := hi
  obtain ⟨base', hplaced', hlast'⟩ := hj
  cases s with
  | leaf source role =>
    exact ⟨_, _, Placed.last (s := []) hplaced hlast, Placed.last (s := []) hplaced' hlast',
      .leaf _ _ _⟩
  | call name =>
    exact likeAt_name hindex name (Placed.last (s := []) hplaced hlast)
      (Placed.last (s := []) hplaced' hlast')
  | repetition name bound shape =>
    exact ⟨_, _, Placed.last (s := [_]) hplaced hlast, Placed.last (s := [_]) hplaced' hlast',
      .repetition _ _ (.name name hplaced.head hplaced'.head)⟩
  | maybe name =>
    exact ⟨_, _, Placed.last (s := [_]) hplaced hlast, Placed.last (s := [_]) hplaced' hlast',
      .optional (.name name hplaced.head hplaced'.head)⟩
  | anyOf names =>
    exact ⟨_, _, hplaced.last hlast, hplaced'.last hlast',
      .alternative _ (sameParts_range' names hplaced.left hplaced'.left)⟩

omit hindex in
theorem likeAt_clause (c : Clause τ) (hi : BlockEnds nodes (Clause.nodes index) c i)
    (hj : BlockEnds nodes' (Clause.nodes index') c j) : LikeAt nodes nodes' index index' i j := by
  obtain ⟨base, hplaced, hlast⟩ := hi
  obtain ⟨base', hplaced', hlast'⟩ := hj
  have hsteps := layOut_ends (Step.nodes_pos index) c.steps hplaced.left
  have hsteps' := layOut_ends (Step.nodes_pos index') c.steps hplaced'.left
  exact ⟨_, _, hplaced.last hlast, hplaced'.last hlast',
    .sequence _ (forall₂_of_both hsteps hsteps' fun hi hj => .step _ hi hj)⟩

omit hindex in
theorem likeAt_rule (r : Rule τ) (hi : BlockEnds nodes (Rule.nodes index) r i)
    (hj : BlockEnds nodes' (Rule.nodes index') r j) : LikeAt nodes nodes' index index' i j := by
  by_cases hone : ∃ c, r.clauses = [c]
  · -- a rule with one clause is laid out as that clause, with no choice around it
    obtain ⟨c, hc⟩ := hone
    rw [BlockEnds] at hi hj
    simp only [Rule.nodes_single _ hc] at hi hj
    exact likeAt_clause c hi hj
  · obtain ⟨base, hplaced, hlast⟩ := hi
    obtain ⟨base', hplaced', hlast'⟩ := hj
    have hnodes := (Rule.nodes_eq index base r).resolve_left fun ⟨c, hc, _⟩ => hone ⟨c, hc⟩
    have hnodes' := (Rule.nodes_eq index' base' r).resolve_left fun ⟨c, hc, _⟩ => hone ⟨c, hc⟩
    rw [hnodes] at hplaced hlast
    rw [hnodes'] at hplaced' hlast'
    have hclauses := layOut_ends (Clause.nodes_pos index) r.clauses hplaced.left
    have hclauses' := layOut_ends (Clause.nodes_pos index') r.clauses hplaced'.left
    exact ⟨_, _, hplaced.last hlast, hplaced'.last hlast',
      .alternative _ (forall₂_of_both hclauses hclauses' fun hi hj => .clause _ hi hj)⟩

/-- **What stands for the same is the same but for numbers.** -/
theorem SamePart.likeAt (h : SamePart nodes nodes' index index' i j) :
    LikeAt nodes nodes' index index' i j := by
  cases h with
  | rule r hi hj => exact likeAt_rule r hi hj
  | clause c hi hj => exact likeAt_clause c hi hj
  | step s hi hj => exact likeAt_step hindex s hi hj
  | name name hi hj => exact likeAt_name hindex name hi hj

end

end

/-! ## the same rules in another order -/

namespace Grammar
variable {τ : Type} {grammar other : Grammar τ}

theorem roll_of_nodup {rules : List (Rule τ)} {roll : Roll τ} (hroll : roll.Sound)
    (h : (rules.map Rule.name).Nodup)
    (hnew : ∀ rule ∈ rules, rule.name ∉ roll.definitions.map Rule.name) :
    (rules.foldl Roll.add roll).definitions = roll.definitions ++ rules ∧
      (rules.foldl Roll.add roll).duplicates = roll.duplicates := by
  induction rules generalizing roll with
  | nil => exact ⟨(List.append_nil _).symm, rfl⟩
  | cons rule rules ih =>
    rw [List.map_cons, List.nodup_cons] at h
    obtain ⟨hrule, hrules⟩ := List.forall_mem_cons.mp hnew
    have hfresh : (roll.definitions.any fun r => r.name == rule.name) = false := by
      rw [List.any_eq_false]
      intro r hr hname
      exact hrule (List.mem_map.mpr ⟨r, hr, beq_iff_eq.mp hname⟩)
    have hmore := hroll.add rule
    rw [List.foldl_cons]
    rw [hroll.add_new hfresh] at hmore ⊢
    have hnew' : ∀ r ∈ rules, r.name ∉ (roll.definitions ++ [rule]).map Rule.name := by
      intro r hr hmem
      rw [List.map_append, List.mem_append] at hmem
      rcases hmem with hmem | hmem
      · exact hrules r hr hmem
      · exact h.1 (List.mem_singleton.mp hmem ▸ List.mem_map_of_mem hr)
    obtain ⟨hdefinitions, hduplicates⟩ := ih hmore h.2 hnew'
    exact ⟨hdefinitions.trans (List.append_assoc ..), hduplicates⟩

/-- the same rules in some order, with names that differ, and the same ignorable text -/
structure Shuffled (grammar other : Grammar τ) : Prop where
  ignorables : grammar.ignorables = other.ignorables
  rules : grammar.rules.Perm other.rules
  names : (grammar.rules.map Rule.name).Nodup

/-- rules whose names differ all count -/
theorem definitions_of_nodup (h : (grammar.rules.map Rule.name).Nodup) :
    grammar.definitions = grammar.rules ∧ grammar.duplicates = [] :=
  roll_of_nodup .empty h fun _ _ => List.not_mem_nil

/-- the rule with a number has its name and its root -/
theorem exists_of_index {name : String} {r : Nat} (h : grammar.index name = some r) :
    ∃ rule i, grammar.definitions[r]? = some rule ∧ rule.name = name ∧
      grammar.compile.root? r = some i ∧
      BlockEnds grammar.compile.nodes (Rule.nodes grammar.index) rule i := by
  rw [index_eq] at h
  obtain ⟨hr, hname, -⟩ := List.findIdx?_eq_some_iff_getElem.mp h
  obtain ⟨hlength, hends⟩ := List.forall₂_iff_get.mp grammar.ends_roots
  have hr' : r < grammar.nodes.2.length := hlength ▸ hr
  refine ⟨grammar.definitions[r], grammar.nodes.2[r], List.getElem?_eq_getElem hr, ?_, ?_,
    hends r hr hr'⟩
  · simpa using hname
  · rw [grammar.compile_root?, List.getElem?_eq_getElem hr']

theorem index_isSome_iff (name : String) :
    (grammar.index name).isSome = true ↔ ∃ rule ∈ grammar.rules, rule.name = name := by
  rw [index_eq, List.findIdx?_isSome, List.any_eq_true, ← List.find?_isSome, grammar.find?_definitions,
    rule?, List.find?_isSome]
  simp

/-- where names differ, the place of a rule is its number -/
theorem index_of_getElem? (h : (grammar.definitions.map Rule.name).Nodup) {r : Nat} {rule : Rule τ}
    (hr : grammar.definitions[r]? = some rule) : grammar.index rule.name = some r := by
  obtain ⟨hlt, rfl⟩ := List.getElem?_eq_some_iff.mp hr
  rw [index_eq]
  refine List.findIdx?_eq_some_iff_getElem.mpr ⟨hlt, beq_self_eq_true _, fun j hj hname => ?_⟩
  have hr' : r < (grammar.definitions.map Rule.name).length := by simpa using hlt
  have hj' : j < (grammar.definitions.map Rule.name).length := Nat.lt_trans hj hr'
  have hsame : (grammar.definitions.map Rule.name)[j] = (grammar.definitions.map Rule.name)[r] := by
    simpa using hname
  exact Nat.ne_of_lt hj (h.getElem_inj_iff.mp hsame)

theorem sameRule_unique {r r' s s' : Nat}
    (hrs : SameRule grammar.index other.index r s)
    (hrs' : SameRule grammar.index other.index r' s') (heq : r = r') : s = s' := by
  obtain ⟨name, hr, hs⟩ := hrs
  obtain ⟨name', hr', hs'⟩ := hrs'
  subst heq
  obtain ⟨rule, -, hrule, rfl, -⟩ := exists_of_index hr
  obtain ⟨rule', -, hrule', rfl, -⟩ := exists_of_index hr'
  cases hrule.symm.trans hrule'
  exact Option.some.inj (hs.symm.trans hs')

theorem compile_rules_size : grammar.compile.rules.size = grammar.definitions.length := by
  obtain ⟨facts, hrules, hfacts⟩ := grammar.exists_compile_rules
  have hlength := grammar.ends_roots.length_eq
  rw [hrules]
  simp [hfacts, hlength]

namespace Shuffled

theorem symm (h : grammar.Shuffled other) : other.Shuffled grammar :=
  ⟨h.ignorables.symm, h.rules.symm, (h.rules.map Rule.name).nodup_iff.mp h.names⟩

theorem definitions (h : grammar.Shuffled other) :
    grammar.definitions.Perm other.definitions ∧ (grammar.definitions.map Rule.name).Nodup := by
  rw [(definitions_of_nodup h.names).1, (definitions_of_nodup h.symm.names).1]
  exact ⟨h.rules, h.names⟩

theorem isSome_index (h : grammar.Shuffled other) (name : String) :
    (grammar.index name).isSome = (other.index name).isSome := by
  rw [Bool.eq_iff_iff, index_isSome_iff, index_isSome_iff]
  constructor
  · rintro ⟨rule, hrule, hname⟩
    exact ⟨rule, h.rules.mem_iff.mp hrule, hname⟩
  · rintro ⟨rule, hrule, hname⟩
    exact ⟨rule, h.rules.mem_iff.mpr hrule, hname⟩

/-- numbers of rules with the same name belong to the same rule -/
theorem exists_of_sameRule (h : grammar.Shuffled other) {r s : Nat}
    (hrs : SameRule grammar.index other.index r s) :
    ∃ rule i j, grammar.definitions[r]? = some rule ∧ other.definitions[s]? = some rule ∧
      grammar.compile.root? r = some i ∧ other.compile.root? s = some j ∧
      SamePart grammar.compile.nodes other.compile.nodes grammar.index other.index i j := by
  obtain ⟨name, hr, hs⟩ := hrs
  obtain ⟨rule, i, hrule, hname, hi, hends⟩ := exists_of_index hr
  obtain ⟨rule', j, hrule', hname', hj, hends'⟩ := exists_of_index hs
  have hmem : rule ∈ grammar.definitions := List.mem_of_getElem? hrule
  have hmem' : rule' ∈ grammar.definitions :=
    h.definitions.1.mem_iff.mpr (List.mem_of_getElem? hrule')
  have hsame : rule = rule' :=
    List.inj_on_of_nodup_map h.definitions.2 hmem hmem' (hname.trans hname'.symm)
  subst hsame
  exact ⟨rule, i, j, hrule, hrule', hi, hj, .rule rule hends hends'⟩

/-- **The graphs are the same under other numbers.** -/
theorem twins (h : grammar.Shuffled other) :
    grammar.compile.Twins
      (SamePart grammar.compile.nodes other.compile.nodes grammar.index other.index)
      (SameRule grammar.index other.index) other.compile := by
  have hswap : ∀ {r s}, SameRule grammar.index other.index r s →
      SameRule other.index grammar.index s r := fun ⟨name, hr, hs⟩ => ⟨name, hs, hr⟩
  refine ⟨fun hij => hij.likeAt h.isSome_index, fun hrs => ?_, fun hrs hrs' => ⟨?_, ?_⟩⟩
  · obtain ⟨-, i, j, -, -, hi, hj, hij⟩ := h.exists_of_sameRule hrs
    exact ⟨i, j, hi, hj, hij⟩
  · exact sameRule_unique hrs hrs'
  · exact sameRule_unique (hswap hrs) (hswap hrs')

end Shuffled

/-! ## what is reported about rules -/

theorem compile_roots : grammar.compile.roots = grammar.nodes.2.toArray := by
  apply Array.ext_getElem?
  intro r
  rw [Graph.getElem?_roots, compile_root?, List.getElem?_toArray]

/-- the entry of a rule -/
theorem getElem?_compile_rules {r i : Nat} {rule : Rule τ}
    (hrule : grammar.definitions[r]? = some rule) (hi : grammar.compile.root? r = some i) :
    grammar.compile.rules[r]? = some ⟨rule.name, i, factsOf grammar.compile.nodes
      (nullableNodes grammar.compile.nodes grammar.compile.roots) grammar.compile.calls r i⟩ := by
  rw [compile_root?] at hi
  rw [Graph.calls, compile_roots]
  have hfacts : (analyze grammar.compile.nodes grammar.nodes.2.toArray).toList[r]? =
      some (factsOf grammar.compile.nodes (nullableNodes grammar.compile.nodes
        grammar.nodes.2.toArray) (grammar.nodes.2.toArray.map (calledRules grammar.compile.nodes))
        r i) := by
    rw [Array.getElem?_toList, analyze, Array.getElem?_mapIdx, List.getElem?_toArray, hi]
    rfl
  have hname : (grammar.definitions.map Rule.name)[r]? = some rule.name := by
    rw [List.getElem?_map, hrule]
    rfl
  have hpair := (List.getElem?_zip_eq_some (z := (i, _))).mpr ⟨hi, hfacts⟩
  have hzip := (List.getElem?_zip_eq_some (z := (rule.name, i, _))).mpr ⟨hname, hpair⟩
  show (List.toArray (List.map _ (List.zip _ (List.zip _ _))))[r]? = _
  rw [List.getElem?_toArray, List.getElem?_map]
  exact congrArg (Option.map fun x : String × Nat × Facts => RuleEntry.mk x.1 x.2.1 x.2.2) hzip

end Grammar

section
variable {τ : Type} {g : Graph τ} {limit : Nat} {name text : String} {options : Options}

theorem Graph.inspect?_unknown (h : g.ruleIndex? name = none) :
    (g.inspect? limit name text options).map (·.outcome.account) =
      some (Outcome.unknown name).account := by
  rw [inspect?, h]
  rfl

theorem Graph.inspect?_known {r : Nat} (h : g.ruleIndex? name = some r) :
    (g.inspect? limit name text options).map (·.outcome.account) =
      (g.run? limit r text options).map Outcome.account := by
  rw [inspect?, h, Option.map_map]
  rfl

end

/-- the facts of the rule with that name -/
def Graph.facts? {τ : Type} (g : Graph τ) (name : String) : Option Facts :=
  (g.ruleIndex? name).bind fun r => g.rules[r]?.map RuleEntry.facts

/-- whether the rule with that name repeats a nullable parser -/
def Graph.repeats {τ : Type} (g : Graph τ) (name : String) : Bool :=
  ((g.ruleIndex? name).bind g.root?).any
    (repeatsNullable g.nodes (nullableNodes g.nodes g.roots))

namespace Grammar
variable {τ : Type} {grammar other : Grammar τ}

theorem compile_issues (h : (grammar.rules.map Rule.name).Nodup) :
    grammar.compile.issues = grammar.wiringIssues ++ grammar.rules.filterMap fun rule =>
      if grammar.compile.repeats rule.name then some (.nullableRepetition rule.name) else none := by
  obtain ⟨hdefinitions, hduplicates⟩ := definitions_of_nodup h
  let found := repeatsNullable grammar.compile.nodes
    (nullableNodes grammar.compile.nodes grammar.nodes.2.toArray)
  -- the roots in their order are those of the names in their order
  have hfound : grammar.nodes.2.map found =
      grammar.definitions.map fun rule => grammar.compile.repeats rule.name := by
    apply List.ext_getElem?
    intro r
    rw [List.getElem?_map, List.getElem?_map]
    cases hrule : grammar.definitions[r]? with
    | none =>
      have hlength := grammar.ends_roots.length_eq
      rw [List.getElem?_eq_none_iff, hlength, ← List.getElem?_eq_none_iff] at hrule
      rw [hrule]
      rfl
    | some rule =>
      have hindex := index_of_getElem? (hdefinitions ▸ h) hrule
      obtain ⟨-, i, -, -, hi, -⟩ := exists_of_index hindex
      have hrepeats : grammar.compile.repeats rule.name = found i := by
        rw [Graph.repeats, compile_ruleIndex?, hindex, Option.bind_some, hi, compile_roots]
        rfl
      rw [compile_root?] at hi
      rw [hi, Option.map_some, Option.map_some, hrepeats]
  show grammar.duplicates.map Issue.duplicateRule ++ grammar.wiringIssues ++
    ((grammar.definitions.map Rule.name).zip (nullableRepetitions grammar.compile.nodes
      grammar.nodes.2.toArray).toList).filterMap _ = _
  rw [hduplicates, List.map_nil, List.nil_append, nullableRepetitions, Array.toList_map]
  show grammar.wiringIssues ++ ((grammar.definitions.map Rule.name).zip
    (grammar.nodes.2.map found)).filterMap _ = _
  rw [hfound, hdefinitions, List.zip_map', List.filterMap_map]
  rfl

namespace Shuffled

theorem ruleIndex? (h : grammar.Shuffled other) (name : String) :
    (grammar.compile.ruleIndex? name = none ∧ other.compile.ruleIndex? name = none) ∨
      ∃ r s, grammar.compile.ruleIndex? name = some r ∧ other.compile.ruleIndex? name = some s ∧
        SameRule grammar.index other.index r s := by
  have hsome := h.isSome_index name
  rw [compile_ruleIndex?, compile_ruleIndex?]
  cases hr : grammar.index name with
  | none =>
    rw [hr] at hsome
    exact .inl ⟨rfl, Option.isNone_iff_eq_none.mp (Option.isSome_eq_false_iff.mp hsome.symm)⟩
  | some r =>
    rw [hr] at hsome
    obtain ⟨s, hs⟩ := Option.isSome_iff_exists.mp hsome.symm
    exact .inr ⟨r, s, rfl, hs, name, hr, hs⟩

theorem inspect? (h : grammar.Shuffled other) (limit : Nat) (name text : String)
    (options : Options) :
    (grammar.compile.inspect? limit name text options).map (·.outcome.account) =
      (other.compile.inspect? limit name text options).map (·.outcome.account) := by
  have hignorables : grammar.compile.ignorables = other.compile.ignorables := by
    show grammar.ignorablePatterns = other.ignorablePatterns
    rw [ignorablePatterns, ignorablePatterns, h.ignorables]
  rcases h.ruleIndex? name with ⟨hr, hs⟩ | ⟨r, s, hr, hs, hrs⟩
  · rw [Graph.inspect?_unknown hr, Graph.inspect?_unknown hs]
  · have hname : grammar.compile.ruleName r = other.compile.ruleName s := by
      rw [grammar.compile_ruleName hr, other.compile_ruleName hs]
    rw [Graph.inspect?_known hr, Graph.inspect?_known hs]
    exact h.twins.run? hrs hignorables hname limit text options

theorem facts? (h : grammar.Shuffled other) (name : String) :
    grammar.compile.facts? name = other.compile.facts? name := by
  rw [Graph.facts?, Graph.facts?]
  rcases h.ruleIndex? name with ⟨hr, hs⟩ | ⟨r, s, hr, hs, hrs⟩
  · rw [hr, hs, Option.bind_none, Option.bind_none]
  · obtain ⟨rule, i, j, hrule, hrule', hi, hj, hij⟩ := h.exists_of_sameRule hrs
    rw [hr, hs, Option.bind_some, Option.bind_some, getElem?_compile_rules hrule hi,
      getElem?_compile_rules hrule' hj]
    exact congrArg some (h.twins.facts hrs hij)

theorem repeats (h : grammar.Shuffled other) (name : String) :
    grammar.compile.repeats name = other.compile.repeats name := by
  rw [Graph.repeats, Graph.repeats]
  rcases h.ruleIndex? name with ⟨hr, hs⟩ | ⟨r, s, hr, hs, hrs⟩
  · rw [hr, hs, Option.bind_none, Option.bind_none, Option.any_none, Option.any_none]
  · obtain ⟨-, i, j, -, -, hi, hj, hij⟩ := h.exists_of_sameRule hrs
    rw [hr, hs, Option.bind_some, Option.bind_some, hi, hj, Option.any_some, Option.any_some]
    exact h.twins.repeatsNullable hij

theorem wiringIssues (h : grammar.Shuffled other) :
    grammar.wiringIssues.Perm other.wiringIssues := by
  -- issues ask whether a name has a number, and never which one
  have hname : nameIssues grammar.index = nameIssues other.index := by
    funext rule name
    have hsome := h.isSome_index name
    rw [nameIssues, nameIssues]
    cases hr : grammar.index name <;> cases hs : other.index name <;> simp_all
  have hstep : ∀ rule, Step.issues (τ := τ) grammar.index rule = Step.issues other.index rule := by
    intro rule
    funext step
    cases step <;> simp only [Step.issues, hname]
  have hrule : Rule.issues (τ := τ) grammar.index = Rule.issues other.index := by
    funext rule
    simp only [Rule.issues, hstep]
  rw [Grammar.wiringIssues, Grammar.wiringIssues, h.ignorables, hrule]
  exact (h.definitions.1.flatMap_right _).append_right _

theorem issues (h : grammar.Shuffled other) :
    grammar.compile.issues.Perm other.compile.issues := by
  rw [compile_issues h.names, compile_issues h.symm.names]
  refine h.wiringIssues.append ?_
  simp only [h.repeats]
  exact h.rules.filterMap _

end Shuffled

end Grammar

/-- **The order of rules does not matter.**  With the same rules in another order and the same ignorable
text, a name comes to the same outcome for every text within every limit, counters included; it has
the same facts; and the issues are the same, in some order. -/
theorem order_irrelevant {τ : Type} (grammar other : Grammar τ)
    (hignorables : grammar.ignorables = other.ignorables) (hrules : grammar.rules.Perm other.rules)
    (hnames : (grammar.rules.map Rule.name).Nodup) :
    (∀ (name text : String) (options : Options) (limit : Nat),
      (grammar.compile.inspect? limit name text options).map (·.outcome.account) =
        (other.compile.inspect? limit name text options).map (·.outcome.account)) ∧
    (∀ name, grammar.compile.facts? name = other.compile.facts? name) ∧
    grammar.compile.issues.Perm other.compile.issues := by
  have h : grammar.Shuffled other := ⟨hignorables, hrules, hnames⟩
  exact ⟨fun name text options limit => h.inspect? limit name text options, h.facts?, h.issues⟩

/-! ## two rules -/

namespace Swapped

/-- `a ::= a "x" | b*` and `b ::= "y" | nowhere?`, where nothing is called `nowhere` -/
def grammar : Grammar Unit :=
  (Grammar.empty.declare
    (({ name := "a" } : Rule.Draft Unit).call "a" |>.hide "x" |>.or |>.many "b")).declare
    (({ name := "b" } : Rule.Draft Unit).hide "y" |>.or |>.maybe "nowhere")

def reversed : Grammar Unit := { grammar with rules := grammar.rules.reverse }

/-- `a` is cut off once and stands still once in both orders, and two issues are reported -/
theorem order_irrelevant_of_reversed :
    ∃ account, (grammar.compile.inspect? 100 "a" "yy" {}).map (·.outcome.account) = some account ∧
      (reversed.compile.inspect? 100 "a" "yy" {}).map (·.outcome.account) = some account ∧
      account.2.2.2.recursionCuts = 1 ∧ account.2.2.2.zeroWidthStops = 1 ∧
      reversed.compile.facts? "a" = some ⟨true, true, false⟩ ∧ reversed.compile.issues.length = 2 := by
  have hnames : (grammar.rules.map Rule.name).Nodup := by decide
  obtain ⟨hsame, hfacts, hissues⟩ :=
    order_irrelevant grammar reversed rfl (List.reverse_perm grammar.rules).symm hnames
  have hcounts : ((grammar.compile.inspect? 100 "a" "yy" {}).map (·.outcome.account)).map
      (fun x => (x.2.2.2.recursionCuts, x.2.2.2.zeroWidthStops)) = some (1, 1) := by
    decide +kernel
  have hfacts' : grammar.compile.facts? "a" = some ⟨true, true, false⟩ := by decide +kernel
  have hlength : grammar.compile.issues.length = 2 := by decide +kernel
  obtain ⟨account, haccount, hpair⟩ := Option.map_eq_some_iff.mp hcounts
  obtain ⟨hcuts, hstops⟩ := Prod.mk.inj hpair
  exact ⟨account, haccount, (hsame "a" "yy" {} 100).symm.trans haccount, hcuts, hstops,
    (hfacts "a").symm.trans hfacts', hissues.length_eq.symm.trans hlength⟩

end Swapped

end Packrat
