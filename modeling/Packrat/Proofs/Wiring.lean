import Packrat.Proofs.References

/-!
# What is reported about a grammar

Some issues say that a parser can never match: a name without a rule, and a text that is no pattern.
They are the mentions in the rules that cannot be met, one for one.

* `Mention`               a pattern by its text, or a rule by its name;
* `Step.mentions`, `Rule.mentions`   what a step or a rule mentions, in order;
* `Grammar.fault?`        what is wrong with a mention, if anything is;
* `Grammar.ruleFaults`, `Grammar.ignorableFaults`   all that is wrong with the definitions that count,
                          and with the text to be ignored;
* `Grammar.filter_issues`   these are the issues that are fatal, in order;
* `Grammar.filterMap_unmet?`   and the parsers that can never match, in order;
* `issues_exact`          so nothing is left out and nothing reported twice, and a grammar without
                          such issues has all that it mentions.
-/

namespace Packrat

/-- something that a rule mentions -/
inductive Mention where
  /-- a pattern, by its text -/
  | pattern (source : String)
  /-- a rule, by its name -/
  | rule (name : String)
deriving DecidableEq

/-- what the issue says that could not be met -/
def Issue.subject? : Issue → Option Mention
  | .undefinedRule _ target => some (.rule target)
  | .invalidPattern _ source _ => some (.pattern source)
  | _ => none

section
variable {τ : Type}

/-- what a parser without parts lacks, so that it can never match -/
def Node.unmet? : Node τ → Option Mention
  | .leaf source none _ => some (.pattern source)
  | .reference name none => some (.rule name)
  | _ => none

/-- all that a step mentions, in order -/
def Step.mentions : Step τ → List Mention
  | .leaf source _ => [.pattern source]
  | s => s.names.map .rule

/-- all that the steps of a rule mention, in order -/
def Rule.mentions (rule : Rule τ) : List Mention :=
  rule.clauses.flatMap fun c => c.steps.flatMap Step.mentions

namespace Grammar
variable (grammar : Grammar τ)

/-- what is wrong if that rule mentions this: the text is no pattern, or no rule has that name -/
def fault? (rule : String) : Mention → Option Issue
  | .pattern source =>
    match Pattern.anchored source with
    | .ok _ => none
    | .error e => some (.invalidPattern rule source e)
  | .rule name =>
    if grammar.rules.any fun r => r.name == name then none else some (.undefinedRule rule name)

/-- all that is wrong with what the definitions mention, in order -/
def ruleFaults : List Issue :=
  (earliest Rule.name grammar.rules).flatMap fun rule =>
    rule.mentions.filterMap (grammar.fault? rule.name)

/-- all that is wrong with the text to be ignored -/
def ignorableFaults : List Issue :=
  grammar.ignorables.filterMap fun source => grammar.fault? ignorableRule (.pattern source)

/-! ## issues -/

theorem patternIssues_eq (rule source : String) :
    patternIssues rule source = (grammar.fault? rule (.pattern source)).toList := by
  rw [patternIssues, fault?]
  cases Pattern.anchored source <;> rfl

/-- a name has a number just if some rule has that name -/
theorem index_eq_none_iff (name : String) :
    grammar.index name = none ↔ (grammar.rules.any fun r => r.name == name) = false := by
  rw [← Option.not_isSome_iff_eq_none, index_isSome_iff, ← Bool.not_eq_true, List.any_eq_true]
  simp only [beq_iff_eq]

theorem nameIssues_eq (rule name : String) :
    nameIssues grammar.index rule name = (grammar.fault? rule (.rule name)).toList := by
  rw [nameIssues, fault?]
  cases hindex : grammar.index name with
  | none => rw [(grammar.index_eq_none_iff name).mp hindex]; rfl
  | some r =>
    have hany : (grammar.rules.any fun r => r.name == name) = true := by
      rw [← Bool.not_eq_false, ← grammar.index_eq_none_iff, hindex]
      exact Option.some_ne_none r
    rw [hany]
    rfl

theorem stepIssues_eq (rule : String) (s : Step τ) :
    s.issues grammar.index rule = s.mentions.filterMap (grammar.fault? rule) := by
  have hnames : ∀ names : List String, names.flatMap (nameIssues grammar.index rule) =
      (names.map Mention.rule).filterMap (grammar.fault? rule) := by
    intro names
    rw [List.filterMap_eq_flatMap_toList, List.flatMap_map]
    exact congrArg names.flatMap (funext (grammar.nameIssues_eq rule))
  have hname : ∀ name, nameIssues grammar.index rule name =
      ([name].map Mention.rule).filterMap (grammar.fault? rule) := by
    intro name
    rw [← hnames, List.flatMap_singleton]
  cases s with
  | leaf source role =>
    rw [Step.mentions, List.filterMap_eq_flatMap_toList, List.flatMap_singleton]
    exact grammar.patternIssues_eq rule source
  | call name => exact hname name
  | repetition name bound shape => exact hname name
  | maybe name => exact hname name
  | anyOf names => exact hnames names

theorem ruleIssues_eq (rule : Rule τ) :
    rule.issues grammar.index = rule.mentions.filterMap (grammar.fault? rule.name) := by
  rw [Rule.issues, Rule.mentions, List.filterMap_flatMap]
  congr 1
  funext c
  rw [List.filterMap_flatMap]
  exact congrArg c.steps.flatMap (funext (grammar.stepIssues_eq rule.name))

theorem wiringIssues_eq : grammar.wiringIssues = grammar.ruleFaults ++ grammar.ignorableFaults := by
  have hrules : grammar.definitions.flatMap (Rule.issues grammar.index) = grammar.ruleFaults := by
    rw [ruleFaults, ← grammar.definitions_eq.1]
    exact congrArg grammar.definitions.flatMap (funext grammar.ruleIssues_eq)
  have hignorables : grammar.ignorables.flatMap (patternIssues ignorableRule) =
      grammar.ignorableFaults := by
    rw [ignorableFaults, List.filterMap_eq_flatMap_toList]
    exact congrArg grammar.ignorables.flatMap (funext (grammar.patternIssues_eq ignorableRule))
  rw [wiringIssues, hrules, hignorables]

theorem isFatal_of_fault {rule : String} {mention : Mention} {issue : Issue}
    (h : grammar.fault? rule mention = some issue) : issue.isFatal = true := by
  cases mention with
  | pattern source =>
    rw [fault?] at h
    cases hanchored : Pattern.anchored source with
    | ok pattern =>
      rw [hanchored] at h
      cases h
    | error e =>
      rw [hanchored] at h
      cases h
      rfl
  | rule name =>
    rw [fault?] at h
    split at h
    · cases h
    · cases h
      rfl

/-- **The issues that are fatal are the faults, in order**: issues of other kinds stand before and
after them. -/
theorem filter_issues :
    grammar.compile.issues.filter Issue.isFatal = grammar.ruleFaults ++ grammar.ignorableFaults := by
  have hfaults : ∀ issue ∈ grammar.ruleFaults ++ grammar.ignorableFaults, issue.isFatal = true := by
    intro issue hissue
    rcases List.mem_append.mp hissue with hissue | hissue
    · obtain ⟨rule, -, hissue⟩ := List.mem_flatMap.mp hissue
      obtain ⟨mention, -, hfault⟩ := List.mem_filterMap.mp hissue
      exact grammar.isFatal_of_fault hfault
    · obtain ⟨source, -, hfault⟩ := List.mem_filterMap.mp hissue
      exact grammar.isFatal_of_fault hfault
  have hduplicates : (grammar.duplicates.map Issue.duplicateRule).filter Issue.isFatal = [] := by
    rw [List.filter_eq_nil_iff]
    intro issue hissue
    obtain ⟨name, -, rfl⟩ := List.mem_map.mp hissue
    exact Bool.false_ne_true
  show (_ ++ grammar.wiringIssues ++ _).filter Issue.isFatal = _
  rw [List.filter_append, List.filter_append, hduplicates, grammar.wiringIssues_eq,
    List.filter_eq_self.mpr hfaults, List.nil_append, List.append_right_eq_self,
    List.filter_eq_nil_iff]
  intro issue hissue
  obtain ⟨⟨name, found⟩, -, hfound⟩ := List.mem_filterMap.mp hissue
  cases found with
  | true =>
    cases hfound
    exact Bool.false_ne_true
  | false => cases hfound

/-! ## parsers that can never match -/

/-- a parser without parts lacks what it was made for just if that mention is at fault -/
theorem filterMap_unmet?_atoms (rule : String) (s : Step τ) :
    (s.atoms grammar.index).filterMap Node.unmet? =
      (s.mentions.filterMap (grammar.fault? rule)).filterMap Issue.subject? := by
  have hnames : ∀ names : List String,
      (names.map fun name => (.reference name (grammar.index name) : Node τ)).filterMap Node.unmet? =
        ((names.map Mention.rule).filterMap (grammar.fault? rule)).filterMap Issue.subject? := by
    intro names
    rw [List.filterMap_filterMap, List.filterMap_map, List.filterMap_map]
    congr 1
    funext name
    show (Node.reference name (grammar.index name) : Node τ).unmet? =
      (grammar.fault? rule (.rule name)).bind Issue.subject?
    rw [fault?]
    cases hany : (grammar.rules.any fun r => r.name == name) with
    | false => rw [(grammar.index_eq_none_iff name).mpr hany]; rfl
    | true =>
      cases hindex : grammar.index name with
      | none =>
        rw [(grammar.index_eq_none_iff name).mp hindex] at hany
        cases hany
      | some r => rfl
  cases s with
  | leaf source role =>
    show [Node.leaf source (Pattern.anchored source).toOption role].filterMap Node.unmet? =
      ([Mention.pattern source].filterMap (grammar.fault? rule)).filterMap Issue.subject?
    rw [List.filterMap_cons, List.filterMap_cons, fault?]
    cases Pattern.anchored source <;> rfl
  | call name => exact hnames [name]
  | repetition name bound shape => exact hnames [name]
  | maybe name => exact hnames [name]
  | anyOf names => exact hnames names

/-- **The parsers that can never match are those at fault, in order.** -/
theorem filterMap_unmet? : grammar.compile.nodes.toList.filterMap Node.unmet? =
    grammar.ruleFaults.filterMap Issue.subject? := by
  have hatoms : ∀ nodes : List (Node τ),
      nodes.filterMap Node.unmet? = (nodes.filter Node.isAtom).filterMap Node.unmet? := by
    intro nodes
    rw [List.filterMap_filter]
    congr 1
    funext node
    cases node <;> rfl
  show grammar.nodes.1.filterMap Node.unmet? = _
  rw [hatoms, nodes, filter_layOut (Rule.filter_nodes grammar.index), ruleFaults,
    ← grammar.definitions_eq.1, List.filterMap_flatMap, List.filterMap_flatMap]
  congr 1
  funext rule
  rw [Rule.atoms, Rule.mentions, List.filterMap_flatMap, List.filterMap_flatMap,
    List.filterMap_flatMap]
  congr 1
  funext c
  rw [List.filterMap_flatMap, List.filterMap_flatMap, List.filterMap_flatMap]
  exact congrArg c.steps.flatMap (funext (grammar.filterMap_unmet?_atoms rule.name))

/-- without faults there is nothing that a parser lacks -/
theorem unmet?_eq_none (h : grammar.ruleFaults = []) {i : Nat} {node : Node τ}
    (hnode : grammar.compile.nodes[i]? = some node) : node.unmet? = none := by
  have hnone := grammar.filterMap_unmet?
  rw [h, List.filterMap_nil, List.filterMap_eq_nil_iff] at hnone
  rw [← Array.getElem?_toList] at hnode
  exact hnone node (List.mem_of_getElem? hnode)

/-- without faults all text to be ignored is there, in order -/
theorem forall₂_ignorables (h : grammar.ignorableFaults = []) :
    List.Forall₂ (fun source pattern => Pattern.anchored source = .ok pattern) grammar.ignorables
      grammar.compile.ignorables := by
  have hok : ∀ source ∈ grammar.ignorables, grammar.fault? ignorableRule (.pattern source) = none :=
    List.filterMap_eq_nil_iff.mp h
  show List.Forall₂ _ grammar.ignorables (grammar.ignorables.filterMap _)
  generalize grammar.ignorables = sources at hok
  induction sources with
  | nil => exact .nil
  | cons source sources ih =>
    obtain ⟨hfault, hok⟩ := List.forall_mem_cons.mp hok
    rw [fault?] at hfault
    cases hanchored : Pattern.anchored source with
    | error e =>
      rw [hanchored] at hfault
      cases hfault
    | ok pattern =>
      rw [List.filterMap_cons, hanchored]
      exact .cons hanchored (ih hok)

end Grammar

/-- **What is wrong with a grammar is reported, each fault once and in order.**  The issues that are
fatal are one for each mention, in the definitions that count, of a name without a rule or a text that
is no pattern, and then one for each text to be ignored that is no pattern; no text is ignored twice.
They also are one for each parser that can never match, in the order of the parsers.  The graph is
taken as valid just if there are none, and otherwise the first of them is named.  If it is valid,
every leaf has its pattern, every reference its rule, and all text to be ignored its pattern. -/
theorem issues_exact (grammar : Grammar τ) (h : grammar.Declared) :
    grammar.compile.issues.filter Issue.isFatal =
      grammar.ruleFaults ++ grammar.ignorableFaults ∧
    grammar.ignorables.Nodup ∧
    grammar.compile.nodes.toList.filterMap Node.unmet? =
      grammar.ruleFaults.filterMap Issue.subject? ∧
    (grammar.compile.fatal? = none ↔ grammar.compile.issues.filter Issue.isFatal = []) ∧
    grammar.compile.fatal? = (grammar.compile.issues.filter Issue.isFatal).head? ∧
    (grammar.compile.fatal? = none →
      (∀ (i : Nat) (source : String) (pattern : Option Pattern) (role : Role τ),
        grammar.compile.nodes[i]? = some (.leaf source pattern role) →
        ∃ compiled, pattern = some compiled) ∧
      (∀ (i : Nat) (name : String) (target : Option Nat),
        grammar.compile.nodes[i]? = some (.reference name target) →
        ∃ r entry, target = some r ∧ grammar.compile.rules[r]? = some entry ∧
          entry.name = name) ∧
      List.Forall₂ (fun source pattern => Pattern.anchored source = .ok pattern)
        grammar.ignorables grammar.compile.ignorables) := by
  have hfirst : grammar.compile.fatal? =
      (grammar.compile.issues.filter Issue.isFatal).head? := List.head?_filter.symm
  have hnone : grammar.compile.fatal? = none ↔
      grammar.compile.issues.filter Issue.isFatal = [] := by
    rw [hfirst, List.head?_eq_none_iff]
  have hnodup : grammar.ignorables.Nodup := by
    have hkeys : ((earliest id grammar.ignorables).map id).Nodup := nodup_earliest _
    rwa [← h.ignorables, List.map_id] at hkeys
  refine ⟨grammar.filter_issues, hnodup, grammar.filterMap_unmet?, hnone, hfirst, fun hvalid => ?_⟩
  rw [hnone, grammar.filter_issues, List.append_eq_nil_iff] at hvalid
  refine ⟨fun i source pattern role hnode => ?_, fun i name target hnode => ?_,
    grammar.forall₂_ignorables hvalid.2⟩
  · cases pattern with
    | none => cases grammar.unmet?_eq_none hvalid.1 hnode
    | some compiled => exact ⟨compiled, rfl⟩
  · cases target with
    | none => cases grammar.unmet?_eq_none hvalid.1 hnode
    | some r =>
      have hindex := (Grammar.reference_of_getElem? hnode).1
      rw [← grammar.compile_ruleIndex?] at hindex
      obtain ⟨entry, hentry, hname⟩ := grammar.compile_number.mp hindex.symm
      exact ⟨r, entry, rfl, hentry, hname⟩

end

namespace Careless

/-- ignoring `(` twice and a blank, `a ::= "[" (nowhere | b | nowhere)` and a second time `a ::= "*"`, and
`b ::= "x"` -/
def grammar : Grammar Unit :=
  ((((Grammar.empty.ignore "(").ignore " ").ignore "(").declare
    (({ name := "a" } : Rule.Draft Unit).hide "[" |>.anyOf ["nowhere", "b", "nowhere"])).unite
    ((Grammar.empty.declare (({ name := "a" } : Rule.Draft Unit).hide "*")).declare
      (({ name := "b" } : Rule.Draft Unit).hide "x"))

/-- ignoring a blank, `a ::= "x" a?` -/
def careful : Grammar Unit :=
  (Grammar.empty.ignore " ").declare (({ name := "a" } : Rule.Draft Unit).hide "x" |>.maybe "a")

theorem declared : grammar.Declared :=
  .unite (.declare _ (.ignore _ (.ignore _ (.ignore _ .empty)))) (.declare _ (.declare _ .empty))

/-- the name that occurs twice is reported twice, the text to be ignored once, and the definition that
does not count not at all; where nothing is wrong, each leaf has its pattern -/
theorem issues_exact_of_careless :
    grammar.compile.issues.filter Issue.isFatal =
      [.invalidPattern "a" "[" .unclosedClass, .undefinedRule "a" "nowhere",
        .undefinedRule "a" "nowhere", .invalidPattern "(ignorable)" "(" .unclosedGroup] ∧
    grammar.compile.fatal? = some (.invalidPattern "a" "[" .unclosedClass) ∧
    ∃ compiled, careful.compile.nodes[0]? = some (.leaf "x" (some compiled) .hide) := by
  have hrules : grammar.ruleFaults = [.invalidPattern "a" "[" .unclosedClass,
      .undefinedRule "a" "nowhere", .undefinedRule "a" "nowhere"] := by decide +kernel
  have hignorables : grammar.ignorableFaults =
      [.invalidPattern "(ignorable)" "(" .unclosedGroup] := by decide +kernel
  have hcareful : careful.Declared := .declare _ (.ignore _ .empty)
  have hvalid : careful.compile.fatal? = none := by decide +kernel
  obtain ⟨hissues, -, -, -, hfirst, -⟩ := issues_exact grammar declared
  rw [hrules, hignorables] at hissues
  rw [hissues] at hfirst
  obtain ⟨compiled, hcompiled⟩ :=
    ((issues_exact careful hcareful).2.2.2.2.2 hvalid).1 0 "x" _ .hide rfl
  exact ⟨hissues, hfirst, compiled, congrArg (fun p => some (Node.leaf "x" p .hide)) hcompiled⟩

end Careless

end Packrat
