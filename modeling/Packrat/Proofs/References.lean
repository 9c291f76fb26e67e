import Packrat.Proofs.Blocks

/-!
# Which rules lead to which

The analysis looks at numbers: it collects the references among the parsers under the root of a rule,
and goes on from rule to rule for as long as it finds new ones.  What it finds out can be said of the
names in the rules as they were declared.

* `Step.atoms`, `Rule.atoms`   the parsers without parts that a step or a rule becomes;
* `Rule.filter_nodes`     in order, these are the parsers without parts of its block;
* `Grammar.Calls`         the definition of a name calls another name;
* `Grammar.transGen_calls_iff`   chains of numbers are chains of names;
* `facts_of_calls`        so a rule is recursive if its name leads to itself, and unresolved if it
                          calls a name that is not declared.
-/

namespace Packrat

/-! ## parsers without parts -/

section
variable {τ β : Type}

/-- the parser has no parts: it reads text, or refers to a rule -/
def Node.isAtom : Node τ → Bool
  | .leaf _ _ _ => true
  | .reference _ _ => true
  | _ => false

section
variable (index : String → Option Nat)

/-- the parsers without parts that a step becomes -/
def Step.atoms : Step τ → List (Node τ)
  | .leaf source role => [.leaf source (Pattern.anchored source).toOption role]
  | s => s.names.map fun name => .reference name (index name)

/-- the parsers without parts that the steps of a rule become -/
def Rule.atoms (rule : Rule τ) : List (Node τ) :=
  rule.clauses.flatMap fun c => c.steps.flatMap (Step.atoms index)

theorem filter_layOut {nodes : Nat → β → List (Node τ)} {p : Node τ → Bool} {f : β → List (Node τ)}
    (h : ∀ base b, (nodes base b).filter p = f b) (base : Nat) (bs : List β) :
    (layOut nodes base bs).1.filter p = bs.flatMap f := by
  induction bs generalizing base with
  | nil => rfl
  | cons b bs ih =>
    show (nodes base b ++ (layOut nodes (base + (nodes base b).length) bs).1).filter p = _
    rw [List.filter_append, h, ih, List.flatMap_cons]

theorem Step.filter_nodes (base : Nat) (s : Step τ) :
    (s.nodes index base).filter Node.isAtom = s.atoms index := by
  cases s with
  | leaf source role => rfl
  | call name => rfl
  | repetition name bound shape => rfl
  | maybe name => rfl
  | anyOf names =>
    rw [nodes, List.filter_append, List.filter_map]
    show (names.filter fun _ => true).map _ ++ [] = _
    rw [List.filter_true, List.append_nil]
    rfl

theorem Clause.filter_nodes (base : Nat) (c : Clause τ) :
    (c.nodes index base).filter Node.isAtom = c.steps.flatMap (Step.atoms index) := by
  rw [nodes, List.filter_append, filter_layOut (Step.filter_nodes index)]
  exact List.append_nil _

/-- **In order, the parsers without parts of a block are those of the steps.** -/
theorem Rule.filter_nodes (base : Nat) (rule : Rule τ) :
    (rule.nodes index base).filter Node.isAtom = rule.atoms index := by
  rcases Rule.nodes_eq index base rule with ⟨c, hclauses, hnodes⟩ | hnodes
  · rw [hnodes, c.filter_nodes, atoms, hclauses, List.flatMap_singleton]
  · rw [hnodes, List.filter_append, filter_layOut (Clause.filter_nodes index)]
    exact List.append_nil _

end

theorem Rule.mem_atoms {index : String → Option Nat} {rule : Rule τ} {name : String}
    {target : Option Nat} : .reference name target ∈ rule.atoms index ↔
      target = index name ∧ ∃ c ∈ rule.clauses, ∃ s ∈ c.steps, name ∈ s.names := by
  have hnames : ∀ names : List String, (.reference name target : Node τ) ∈
      names.map (fun name => .reference name (index name)) ↔ target = index name ∧ name ∈ names := by
    intro names
    rw [List.mem_map]
    constructor
    · rintro ⟨called, hcalled, heq⟩
      cases heq
      exact ⟨rfl, hcalled⟩
    · rintro ⟨rfl, hname⟩
      exact ⟨name, hname, rfl⟩
  have hstep : ∀ s : Step τ, .reference name target ∈ s.atoms index ↔
      target = index name ∧ name ∈ s.names := by
    intro s
    cases s with
    | leaf source role => simp [Step.atoms, Step.names]
    | _ => exact hnames _
  simp only [atoms, List.mem_flatMap, hstep]
  constructor
  · rintro ⟨c, hc, s, hs, htarget, hname⟩
    exact ⟨htarget, c, hc, s, hs, hname⟩
  · rintro ⟨htarget, c, hc, s, hs, hname⟩
    exact ⟨c, hc, s, hs, htarget, hname⟩

theorem Rule.leaf_mem_atoms {index : String → Option Nat} {rule : Rule τ} {source : String}
    {pattern : Option Pattern} {role : Role τ} : .leaf source pattern role ∈ rule.atoms index ↔
      pattern = (Pattern.anchored source).toOption ∧
        ∃ c ∈ rule.clauses, .leaf source role ∈ c.steps := by
  have hstep : ∀ s : Step τ, .leaf source pattern role ∈ s.atoms index ↔
      pattern = (Pattern.anchored source).toOption ∧ s = .leaf source role := by
    intro s
    cases s with
    | leaf source' role' =>
      rw [Step.atoms, List.mem_singleton]
      constructor
      · intro heq
        cases heq
        exact ⟨rfl, rfl⟩
      · rintro ⟨rfl, heq⟩
        cases heq
        rfl
    | _ => simp [Step.atoms]
  simp only [atoms, List.mem_flatMap, hstep]
  constructor
  · rintro ⟨c, hc, s, hs, hpattern, rfl⟩
    exact ⟨hpattern, c, hc, hs⟩
  · rintro ⟨hpattern, c, hc, hs⟩
    exact ⟨c, hc, _, hs, hpattern, rfl⟩

/-! ## the parsers under a root -/

namespace Grammar
variable {grammar : Grammar τ} {r s : Nat} {entry : RuleEntry} {name called : String}

theorem rule?_of_definition {rule : Rule τ} (h : grammar.definitions[r]? = some rule) :
    grammar.rule? rule.name = some rule := by
  have hindex := index_of_getElem? grammar.nodup_definitions h
  rw [index_eq] at hindex
  obtain ⟨hr, -, hbefore⟩ := List.findIdx?_eq_some_iff_getElem.mp hindex
  rw [← grammar.find?_definitions, List.find?_eq_some_iff_getElem]
  refine ⟨beq_self_eq_true _, r, hr, (List.getElem?_eq_some_iff.mp h).2, fun j hj => ?_⟩
  simpa using hbefore j hj

/-- a leaf of the graph stands for a step of some definition, and has the pattern of its text -/
theorem leaf_of_getElem? {i : Nat} {source : String} {pattern : Option Pattern} {role : Role τ}
    (h : grammar.compile.nodes[i]? = some (.leaf source pattern role)) :
    pattern = (Pattern.anchored source).toOption ∧
      ∃ rule ∈ grammar.definitions, ∃ c ∈ rule.clauses, .leaf source role ∈ c.steps := by
  have hmem : .leaf source pattern role ∈ grammar.nodes.1 :=
    List.mem_of_getElem? ((List.getElem?_toArray ..).symm.trans h)
  have hatom : .leaf source pattern role ∈ grammar.nodes.1.filter Node.isAtom :=
    List.mem_filter.mpr ⟨hmem, rfl⟩
  rw [nodes, filter_layOut (Rule.filter_nodes grammar.index)] at hatom
  obtain ⟨rule, hrule, hatom⟩ := List.mem_flatMap.mp hatom
  obtain ⟨hpattern, hstep⟩ := Rule.leaf_mem_atoms.mp hatom
  exact ⟨hpattern, rule, hrule, hstep⟩

/-- **The parts of a root are the nodes that its rule was turned into.** -/
theorem exists_parts (h : grammar.compile.rules[r]? = some entry) :
    ∃ rule start, grammar.rule? entry.name = some rule ∧
      ∀ node, node ∈ parts grammar.compile.nodes entry.root ↔
        node ∈ rule.nodes grammar.index start := by
  obtain ⟨start, rule, -, -, -, hrule, hname, hplaced, hends, hunder⟩ :=
    grammar.compile_wellFormed.block h
  obtain ⟨-, -, -, hroot⟩ := grammar.exists_definition h
  have hlisted := grammar.compile_indexed.listed hroot
  refine ⟨rule, start, ?_, fun node => ?_⟩
  · rw [← hname]
    exact rule?_of_definition hrule
  · rw [parts, List.mem_filterMap]
    constructor
    · rintro ⟨i, hi, hnode⟩
      obtain ⟨hstart, hle⟩ := (hunder i).mp ((hlisted i).mp hi)
      have hlt : i - start < (rule.nodes grammar.index start).length := by omega
      have hsame := hplaced _ _ (List.getElem?_eq_getElem hlt)
      rw [Nat.add_sub_cancel' hstart, hnode] at hsame
      cases hsame
      exact List.getElem_mem hlt
    · intro hmem
      obtain ⟨k, hk⟩ := List.mem_iff_getElem?.mp hmem
      have hlt := (List.getElem?_eq_some_iff.mp hk).1
      exact ⟨start + k, (hlisted _).mpr ((hunder _).mpr ⟨by omega, by omega⟩), hplaced k node hk⟩

/-- the definition of the first name calls the second -/
def Calls (grammar : Grammar τ) (name called : String) : Prop :=
  ∃ rule, grammar.rule? name = some rule ∧ ∃ c ∈ rule.clauses, ∃ s ∈ c.steps, called ∈ s.names

instance (grammar : Grammar τ) (name called : String) : Decidable (grammar.Calls name called) :=
  decidable_of_iff (∃ rule ∈ (grammar.rule? name).toList, ∃ c ∈ rule.clauses, ∃ s ∈ c.steps,
    called ∈ s.names) (by simp only [Option.mem_toList, Calls])

theorem Calls.mem (h : grammar.Calls name called) : ∃ rule ∈ grammar.rules, rule.name = name ∧
    ∃ c ∈ rule.clauses, ∃ s ∈ c.steps, called ∈ s.names := by
  obtain ⟨rule, hrule, hcalls⟩ := h
  rw [rule?, List.find?_eq_some_iff_append] at hrule
  obtain ⟨hname, before, after, hrules, -⟩ := hrule
  exact ⟨rule, by simp [hrules], beq_iff_eq.mp hname, hcalls⟩

/-- the references under the root of a rule are the names that its definition calls -/
theorem reference_mem_parts (h : grammar.compile.rules[r]? = some entry) {target : Option Nat} :
    .reference name target ∈ parts grammar.compile.nodes entry.root ↔
      target = grammar.index name ∧ grammar.Calls entry.name name := by
  obtain ⟨rule, start, hrule, hparts⟩ := exists_parts h
  have hatom : (.reference name target : Node τ).isAtom = true := rfl
  rw [hparts, ← and_iff_left (a := _ ∈ _) hatom, ← List.mem_filter, rule.filter_nodes, Rule.mem_atoms]
  refine and_congr_right fun _ => ⟨fun hcalls => ⟨rule, hrule, hcalls⟩, ?_⟩
  rintro ⟨rule', hrule', hcalls⟩
  cases hrule.symm.trans hrule'
  exact hcalls

theorem onward_calls_iff (h : grammar.compile.rules[r]? = some entry) :
    Onward grammar.compile.calls r s ↔
      ∃ name, grammar.Calls entry.name name ∧ grammar.compile.ruleIndex? name = some s := by
  obtain ⟨-, -, -, hroot⟩ := grammar.exists_definition h
  rw [Onward, grammar.compile.getD_calls hroot, calledRules, List.mem_filterMap]
  constructor
  · rintro ⟨node, hnode, htarget⟩
    cases node with
    | reference name target =>
      cases htarget
      obtain ⟨hindex, hcalls⟩ := (reference_mem_parts h).mp hnode
      exact ⟨name, hcalls, (grammar.compile_ruleIndex? name).trans hindex.symm⟩
    | _ => cases htarget
  · rintro ⟨name, hcalls, hindex⟩
    rw [compile_ruleIndex?] at hindex
    exact ⟨.reference name (some s), (reference_mem_parts h).mpr ⟨hindex.symm, hcalls⟩, rfl⟩

/-! ## chains of names -/

theorem exists_entry {rule : Rule τ} (h : grammar.rule? name = some rule) :
    ∃ r entry, grammar.compile.ruleIndex? name = some r ∧
      grammar.compile.rules[r]? = some entry ∧ entry.name = name := by
  obtain ⟨r, -, hindex, -⟩ := grammar.compile_stands.defined h
  obtain ⟨entry, hentry, hname⟩ := grammar.compile_number.mp hindex
  exact ⟨r, entry, hindex, hentry, hname⟩

/-- **Chains of numbers are chains of names.** -/
theorem transGen_calls_iff (h : grammar.compile.rules[r]? = some entry) :
    Relation.TransGen (Onward grammar.compile.calls) r s ↔
      ∃ name, Relation.TransGen grammar.Calls entry.name name ∧
        grammar.compile.ruleIndex? name = some s := by
  constructor
  · intro hchain
    induction hchain with
    | single hcalls =>
      obtain ⟨name, hname, hindex⟩ := (onward_calls_iff h).mp hcalls
      exact ⟨name, .single hname, hindex⟩
    | tail _ hcalls ih =>
      obtain ⟨name, hchain, hindex⟩ := ih
      obtain ⟨entry', hentry', rfl⟩ := grammar.compile_number.mp hindex
      obtain ⟨name', hname', hindex'⟩ := (onward_calls_iff hentry').mp hcalls
      exact ⟨name', hchain.tail hname', hindex'⟩
  · rintro ⟨name, hchain, hindex⟩
    induction hchain generalizing s with
    | single hcalls => exact .single ((onward_calls_iff h).mpr ⟨_, hcalls, hindex⟩)
    | @tail middle last _ hcalls ih =>
      -- a name that calls another is declared, so it has a number
      obtain ⟨rule, hrule, hused⟩ := hcalls
      obtain ⟨r', entry', hindex', hentry', rfl⟩ := exists_entry hrule
      exact (ih hindex').tail ((onward_calls_iff hentry').mpr ⟨last, ⟨rule, hrule, hused⟩, hindex⟩)

theorem recursive_iff (h : grammar.compile.rules[r]? = some entry) :
    entry.facts.recursive = true ↔ Relation.TransGen grammar.Calls entry.name entry.name := by
  obtain ⟨rule, hrule, -, hroot⟩ := grammar.exists_definition h
  have hfacts := (getElem?_compile_rules hrule hroot).symm.trans h
  have hrecursive : entry.facts.recursive = isRecursive grammar.compile.calls r :=
    congrArg (·.facts.recursive) (Option.some.inj hfacts).symm
  have hnumber : grammar.compile.ruleIndex? entry.name = some r :=
    grammar.compile_number.mpr ⟨entry, h, rfl⟩
  rw [hrecursive, isRecursive_iff, transGen_calls_iff h]
  constructor
  · rintro ⟨name, hchain, hindex⟩
    rwa [← grammar.compile_ruleName hindex, grammar.compile_ruleName hnumber] at hchain
  · exact fun hchain => ⟨entry.name, hchain, hnumber⟩

theorem unresolved_iff (h : grammar.compile.rules[r]? = some entry) :
    entry.facts.unresolved = true ↔
      ∃ name, grammar.Calls entry.name name ∧ ∀ rule ∈ grammar.rules, rule.name ≠ name := by
  obtain ⟨rule, hrule, -, hroot⟩ := grammar.exists_definition h
  have hfacts := (getElem?_compile_rules hrule hroot).symm.trans h
  have hunresolved : entry.facts.unresolved =
      hasUnresolved grammar.compile.nodes entry.root := by
    rw [← Option.some.inj hfacts]
    rfl
  rw [hunresolved, hasUnresolved, List.any_eq_true]
  constructor
  · rintro ⟨node, hnode, htarget⟩
    cases node with
    | reference name target =>
      cases target with
      | some target => cases htarget
      | none =>
        obtain ⟨hindex, hcalls⟩ := (reference_mem_parts h).mp hnode
        rw [← compile_ruleIndex?] at hindex
        exact ⟨name, hcalls, grammar.compile_ruleIndex?_eq_none.mp hindex.symm⟩
    | _ => cases htarget
  · rintro ⟨name, hcalls, hundeclared⟩
    have hindex := grammar.compile_ruleIndex?_eq_none.mpr hundeclared
    rw [compile_ruleIndex?] at hindex
    exact ⟨.reference name none, (reference_mem_parts h).mpr ⟨hindex.symm, hcalls⟩, rfl⟩

end Grammar

/-- **A rule is recursive just if a chain of calls leads from its name back to it, and unresolved just if
it calls a name that is not declared.**  This is said of the definitions that count, whatever the
grammar.  Both searches come to an end, whatever rules call each other and whatever parsers consist of:
they make no more turns than there are calls or operands and numbers on the stack in the beginning.
The search for a rule finds it just if a chain of calls leads to it, and the search for parts lists all
that a parser consists of and nothing else. -/
theorem facts_of_calls (grammar : Grammar τ) :
    (∀ (r : Nat) (entry : RuleEntry), grammar.compile.rules[r]? = some entry →
      (entry.facts.recursive = true ↔
        Relation.TransGen grammar.Calls entry.name entry.name) ∧
      (entry.facts.unresolved = true ↔
        ∃ name, grammar.Calls entry.name name ∧ ∀ rule ∈ grammar.rules, rule.name ≠ name)) ∧
    (∀ (calls : Array (List Nat)) (rule : Nat),
      (∃ turns ≤ (calls.getD rule []).length + calls.toList.flatten.length,
        Seeks calls rule [] (calls.getD rule []).reverse turns (isRecursive calls rule)) ∧
      (isRecursive calls rule = true ↔
        Relation.TransGen (fun r s => s ∈ calls.getD r []) rule rule)) ∧
    ∀ (nodes : Array (Node τ)) (root : Nat),
      (∃ turns ≤ 1 + (nodes.toList.flatMap Node.operands).length,
        Gathers (nodes.map Node.operands) [] [root] turns (nodesUnder nodes root)) ∧
      ∀ j, j ∈ nodesUnder nodes root ↔ Relation.ReflTransGen
        (fun whole part => ∃ node, nodes[whole]? = some node ∧ part ∈ node.operands) root j := by
  refine ⟨fun r entry h => ⟨Grammar.recursive_iff h, Grammar.unresolved_iff h⟩,
    fun calls rule => ⟨?_, isRecursive_iff⟩, fun nodes root => ⟨?_, fun j => mem_nodesUnder⟩⟩
  · obtain ⟨turns, hturns, hseeks⟩ := seeks_leadsTo calls rule [] (calls.getD rule []).reverse
    rw [List.length_reverse, ahead_nil] at hturns
    exact ⟨turns, hturns, hseeks⟩
  · obtain ⟨turns, hturns, hgathers⟩ := gathers_gather (nodes.map Node.operands) [] [root]
    rw [ahead_nil, Array.toList_map, ← List.flatMap_def] at hturns
    exact ⟨turns, hturns, hgathers⟩

end

namespace Loop

/-- `a ::= b | "x"`, `b ::= c? nowhere`, `c ::= a | b`, `d ::= b*` and once more `c ::= "y"`, where
nothing is called `nowhere` -/
def grammar : Grammar Unit :=
  ((((Grammar.empty.declare (({ name := "a" } : Rule.Draft Unit).call "b" |>.or |>.hide "x")).declare
    (({ name := "b" } : Rule.Draft Unit).maybe "c" |>.call "nowhere")).declare
    (({ name := "c" } : Rule.Draft Unit).anyOf ["a", "b"])).declare
    (({ name := "d" } : Rule.Draft Unit).many "b")).declare
    (({ name := "c" } : Rule.Draft Unit).hide "y")

/-- `b` calls itself by way of `c`, and it alone calls a name that is not declared; `d` leads into the
loop and is not on it -/
theorem facts_of_calls_in_loop :
    ∃ b c d, grammar.compile.rules[1]? = some b ∧ b.name = "b" ∧
      b.facts.recursive = true ∧ b.facts.unresolved = true ∧
      grammar.compile.rules[2]? = some c ∧ c.name = "c" ∧
      c.facts.recursive = true ∧ c.facts.unresolved = false ∧
      grammar.compile.rules[3]? = some d ∧ d.name = "d" ∧
      d.facts.recursive = false ∧ d.facts.unresolved = false := by
  have hnames : (grammar.compile.rules[1]?).map RuleEntry.name = some "b" ∧
      (grammar.compile.rules[2]?).map RuleEntry.name = some "c" ∧
      (grammar.compile.rules[3]?).map RuleEntry.name = some "d" := by decide +kernel
  obtain ⟨b, hb, hnameb⟩ := Option.map_eq_some_iff.mp hnames.1
  obtain ⟨c, hc, hnamec⟩ := Option.map_eq_some_iff.mp hnames.2.1
  obtain ⟨d, hd, hnamed⟩ := Option.map_eq_some_iff.mp hnames.2.2
  obtain ⟨hloopb, hmissingb⟩ := (facts_of_calls grammar).1 1 b hb
  obtain ⟨hloopc, hmissingc⟩ := (facts_of_calls grammar).1 2 c hc
  obtain ⟨hloopd, hmissingd⟩ := (facts_of_calls grammar).1 3 d hd
  rw [hnameb] at hloopb hmissingb
  rw [hnamec] at hloopc hmissingc
  rw [hnamed] at hloopd hmissingd
  have hbc : grammar.Calls "b" "c" := by decide +kernel
  have hcb : grammar.Calls "c" "b" := by decide +kernel
  have hnowhere : grammar.Calls "b" "nowhere" ∧ ∀ rule ∈ grammar.rules, rule.name ≠ "nowhere" := by
    decide +kernel
  -- no other rule calls a name that is not declared, and no rule calls `d`
  have hdeclared : ∀ rule ∈ grammar.rules, rule.name ≠ "b" → ∀ c ∈ rule.clauses, ∀ s ∈ c.steps,
      ∀ called ∈ s.names, ∃ other ∈ grammar.rules, other.name = called := by decide +kernel
  have huncalled : ∀ rule ∈ grammar.rules, ∀ c ∈ rule.clauses, ∀ s ∈ c.steps,
      ∀ called ∈ s.names, called ≠ "d" := by decide +kernel
  have hresolved : ∀ name, name ≠ "b" →
      ¬ ∃ called, grammar.Calls name called ∧ ∀ rule ∈ grammar.rules, rule.name ≠ called := by
    rintro name hname ⟨called, hcalls, hundeclared⟩
    obtain ⟨rule, hrule, rfl, c, hc, s, hs, hcalled⟩ := hcalls.mem
    obtain ⟨other, hother, hsame⟩ := hdeclared rule hrule hname c hc s hs called hcalled
    exact hundeclared other hother hsame
  refine ⟨b, c, d, hb, hnameb, hloopb.mpr ?_, hmissingb.mpr ⟨_, hnowhere⟩, hc, hnamec, hloopc.mpr ?_,
    Bool.eq_false_iff.mpr ?_, hd, hnamed, Bool.eq_false_iff.mpr ?_, Bool.eq_false_iff.mpr ?_⟩
  · exact (Relation.TransGen.single hbc).tail hcb
  · exact (Relation.TransGen.single hcb).tail hbc
  · exact fun h => hresolved "c" (by decide) (hmissingc.mp h)
  · intro h
    obtain ⟨name, -, hcalls⟩ := Relation.TransGen.tail'_iff.mp (hloopd.mp h)
    obtain ⟨rule, hrule, -, c, hc, s, hs, hcalled⟩ := hcalls.mem
    exact huncalled rule hrule c hc s hs "d" hcalled rfl
  · exact fun h => hresolved "d" (by decide) (hmissingd.mp h)

end Loop

end Packrat
