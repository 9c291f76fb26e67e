import Packrat.Proofs.Assembly.Operands

/-!
# Statements and lines of assembly programs

* `Assembly.shows_own`       a statement is found by its own rule;
* `Assembly.shows_statement`   and the rules before that one miss;
* `Assembly.shows_line`      a line is found where its row ends after it;
* `Assembly.misses_line`     no line is found at the end of a text.
-/

namespace Packrat

namespace Assembly

open AssemblyTag (grammar)

/-! ## statements -/

/-- steps whose trees are the children of a node -/
def tagged (tag : AssemblyTag) (steps : List (Step AssemblyTag)) : Clause AssemblyTag where
  steps := steps
  shape := some (.splice (some tag))

def labelStep : Step AssemblyTag := .leaf AssemblyTag.labelPattern (.capture .label)

theorem rule?_assign : grammar.rule? "assign" =
    some ⟨"assign", [tagged .assign [.call "target", .leaf ":=" .hide, .call "expr"]]⟩ := rfl

theorem rule?_call : grammar.rule? "call" =
    some ⟨"call", [tagged .callTo [.leaf Keyword.call.source .hide, labelStep]]⟩ := rfl

theorem rule?_end : grammar.rule? "end" =
    some ⟨"end", [tagged .stop [.leaf "goto[ \\t]+end\\b" .hide]]⟩ := rfl

theorem rule?_goto : grammar.rule? "goto" =
    some ⟨"goto", [tagged .goto [.leaf Keyword.goto.source .hide, labelStep]]⟩ := rfl

theorem rule?_branch : grammar.rule? "branch" =
    some ⟨"branch", [tagged .branch [.leaf Keyword.condition.source .hide, .call "condition",
      .leaf Keyword.goto.source .hide, labelStep]]⟩ := rfl

theorem rule?_push : grammar.rule? "push" =
    some ⟨"push", [tagged .push [.leaf Keyword.push.source .hide, .call "expr"]]⟩ := rfl

theorem rule?_pop : grammar.rule? "pop" =
    some ⟨"pop", [tagged .pop [.leaf Keyword.pop.source .hide, .call "target"]]⟩ := rfl

def returnClause : Clause AssemblyTag where
  steps := [.leaf Keyword.giveBack.source (.keyword .giveBack)]

theorem rule?_return : grammar.rule? "return" = some ⟨"return", [returnClause]⟩ := rfl

/-- the rule of a statement -/
def Statement.name : Statement → String
  | assign _ _ => "assign"
  | call _ => "call"
  | stop => "end"
  | goto _ _ => "goto"
  | branch _ _ => "branch"
  | push _ => "push"
  | pop _ => "pop"
  | giveBack => "return"

section
variable {name : String} {steps : List (Step AssemblyTag)} {tag : AssemblyTag} {p q r : Place}
  {ts : List (Tree AssemblyTag)}

theorem shows_tagged (hrule : grammar.rule? name = some ⟨name, [tagged tag steps]⟩)
    (h : grammar.Lists ignorables steps p ts q) (htags : ∀ t ∈ ts, t.tag.isSome = true) :
    grammar.Shows ignorables name p (.branch (some tag) ts) q := by
  have hlists : grammar.Lists ignorables (tagged tag steps).steps p ts q := h
  exact Grammar.shows_of_forms [] hrule (List.forall_mem_nil _) (hlists.forms rfl htags)

theorem misses_tagged (hrule : grammar.rule? name = some ⟨name, [tagged tag steps]⟩)
    (h : grammar.Breaks ignorables steps p) : grammar.Misses ignorables name p := by
  have hbreaks : grammar.Breaks ignorables (tagged tag steps).steps p := h
  exact Grammar.misses_of_fails hrule (List.forall_mem_singleton.mpr hbreaks.fails)

theorem lists_keyword {k : Keyword} (hp : (shown p).Passes k.text q) (hq : Clear q.rest)
    (h : grammar.Lists ignorables steps q ts r) :
    grammar.Lists ignorables (.leaf k.source .hide :: steps) p ts r := by
  obtain ⟨m, hlook⟩ := look_keyword hp hq
  exact Grammar.lists_hide (anchored_keyword k) hlook h

theorem lists_label {l : Label} (h : Spread [l.text] p q) :
    grammar.Lists ignorables [labelStep] p [l.tree] q := by
  obtain ⟨hp, hq⟩ := h.single
  obtain ⟨m, hlook, hm⟩ := look_label hp hq
  exact Grammar.lists_capture anchored_label hlook hm (grammar.lists_nil q)

theorem lists_symbol {source : String} {c : Char} {ds : List Char}
    (hanchored : Pattern.anchored source = .ok (symbolPattern source (c :: ds)))
    (hc : isGap c = false) (hp : (shown p).Passes (c :: ds) q)
    (h : grammar.Lists ignorables steps q ts r) :
    grammar.Lists ignorables (.leaf source .hide :: steps) p ts r := by
  obtain ⟨m, hlook⟩ := look_symbol source hc hp
  exact Grammar.lists_hide hanchored hlook h

theorem isSome_tag_label (l : Label) : l.tree.tag.isSome = true := rfl

theorem isSome_tag_condition (c : Condition) : c.tree.tag.isSome = true := rfl

theorem anchored_assign : Pattern.anchored ":=" = .ok (symbolPattern ":=" [':', '=']) := rfl

theorem anchored_colon : Pattern.anchored ":" = .ok (symbolPattern ":" [':']) := rfl

theorem shows_own {x : Statement} (h : Spread x.tokens p q) (hq : Ends q) :
    grammar.Shows ignorables x.name p x.tree q := by
  cases x with
  | assign t e =>
    obtain ⟨p₁, ht, hrest⟩ := Spread.split [t.text] h
    obtain ⟨p₂, hp₂, -, he⟩ := hrest.uncons
    have hlists := (shows_target ht).lists (lists_symbol anchored_assign (by decide) hp₂
      ((shows_expression he hq).lists (grammar.lists_nil q)))
    refine shows_tagged rule?_assign hlists ?_
    simp [isSome_tag_target, isSome_tag_expression]
  | call l =>
    obtain ⟨p₁, hp₁, hclear, hl⟩ := h.uncons
    exact shows_tagged rule?_call (lists_keyword hp₁ hclear (lists_label hl))
      (by simp [isSome_tag_label])
  | stop =>
    obtain ⟨p₁, p₂, hp₁, hblank, hend, hclear⟩ := h.pair
    obtain ⟨m, hlook⟩ := look_end hp₁ hblank hend hclear
    exact shows_tagged rule?_end (Grammar.lists_hide anchored_end hlook (grammar.lists_nil q))
      (List.forall_mem_nil _)
  | goto l _ =>
    obtain ⟨p₁, hp₁, hclear, hl⟩ := h.uncons
    exact shows_tagged rule?_goto (lists_keyword hp₁ hclear (lists_label hl))
      (by simp [isSome_tag_label])
  | branch c l =>
    obtain ⟨p₁, hp₁, hclear, hrest⟩ := h.uncons
    obtain ⟨p₂, hc, hrest'⟩ := Spread.split _ hrest
    obtain ⟨p₃, hp₃, hclear', hl⟩ := hrest'.uncons
    have hlists := lists_keyword hp₁ hclear ((shows_condition hc).lists
      (lists_keyword hp₃ hclear' (lists_label hl)))
    exact shows_tagged rule?_branch hlists (by simp [isSome_tag_label, isSome_tag_condition])
  | push e =>
    obtain ⟨p₁, hp₁, hclear, he⟩ := h.uncons
    have hlists := lists_keyword hp₁ hclear ((shows_expression he hq).lists (grammar.lists_nil q))
    exact shows_tagged rule?_push hlists (by simp [isSome_tag_expression])
  | pop t =>
    obtain ⟨p₁, hp₁, hclear, ht⟩ := h.uncons
    have hlists := lists_keyword hp₁ hclear ((shows_target ht).lists (grammar.lists_nil q))
    exact shows_tagged rule?_pop hlists (by simp [isSome_tag_target])
  | giveBack =>
    obtain ⟨hp, hclear⟩ := h.single
    obtain ⟨m, hlook⟩ := look_keyword hp hclear
    have hruns : grammar.Runs ignorables returnClause.steps p [.keyword .giveBack] q :=
      Grammar.runs_leaf (anchored_keyword _) hlook (grammar.runs_nil q)
    have hlists : grammar.Lists ignorables returnClause.steps p [.keyword .giveBack] q :=
      ⟨_, rfl, hruns⟩
    exact Grammar.shows_of_forms [] rule?_return (List.forall_mem_nil _) (hlists.forms_single rfl)

/-! ## the choice among statements -/

/-- the rules of statements, in the order in which they are tried -/
def statementNames : List String :=
  ["assign", "call", "end", "goto", "branch", "push", "pop", "return"]

def statementClause : Clause AssemblyTag where
  steps := [.anyOf statementNames]

theorem rule?_statement : grammar.rule? "statement" = some ⟨"statement", [statementClause]⟩ := rfl

theorem misses_assign (h : ∀ x : Store, ¬ x.mark <+: (shown p).rest) :
    grammar.Misses ignorables "assign" p := by
  have htarget : grammar.Misses ignorables "target" p := by
    refine Grammar.misses_of_fails rule?_target (List.forall_mem_singleton.mpr ?_)
    have hstores : ∀ name ∈ storeNames, grammar.Misses ignorables name p := by
      simp only [storeNames, List.forall_mem_cons]
      exact ⟨misses_store (h .accumulator), misses_store (h .register), misses_store (h .address),
        List.forall_mem_nil _⟩
    exact (Grammar.breaks_anyOf hstores).fails
  exact misses_tagged rule?_assign htarget.breaks

theorem breaks_keyword {k : Keyword} (h : ¬ k.text <+: (shown p).rest) :
    grammar.Breaks ignorables (.leaf k.source .hide :: steps) p :=
  Grammar.breaks_leaf (anchored_keyword k) (look_keyword_eq_none h)

/-- how a statement of the rule can begin -/
def openings : String → List (List Char)
  | "assign" => [Store.accumulator.mark, Store.register.mark, Store.address.mark]
  | "call" => [Keyword.call.text]
  | "end" => [Keyword.goto.text]
  | "goto" => [Keyword.goto.text]
  | "branch" => [Keyword.condition.text]
  | "push" => [Keyword.push.text]
  | "pop" => [Keyword.pop.text]
  | "return" => [Keyword.giveBack.text]
  | _ => []

theorem misses_of_openings (hname : name ∈ statementNames)
    (h : ∀ w ∈ openings name, ¬ w <+: (shown p).rest) : grammar.Misses ignorables name p := by
  simp only [statementNames, List.mem_cons, List.not_mem_nil, or_false] at hname
  rcases hname with rfl | rfl | rfl | rfl | rfl | rfl | rfl | rfl
  · refine misses_assign fun x => ?_
    cases x <;> exact h _ (by simp [openings])
  · exact misses_tagged rule?_call (breaks_keyword (h _ (by simp [openings])))
  · have hlook := look_end_eq_none (h _ (by simp [openings]))
    exact misses_tagged rule?_end (Grammar.breaks_leaf anchored_end hlook)
  · exact misses_tagged rule?_goto (breaks_keyword (h _ (by simp [openings])))
  · exact misses_tagged rule?_branch (breaks_keyword (h _ (by simp [openings])))
  · exact misses_tagged rule?_push (breaks_keyword (h _ (by simp [openings])))
  · exact misses_tagged rule?_pop (breaks_keyword (h _ (by simp [openings])))
  · have hlook := look_keyword_eq_none (k := .giveBack) (h _ (by simp [openings]))
    have hbreaks : grammar.Breaks ignorables returnClause.steps p :=
      Grammar.breaks_leaf (anchored_keyword .giveBack) hlook
    exact Grammar.misses_of_fails rule?_return (List.forall_mem_singleton.mpr hbreaks.fails)

/-- where a keyword stands, every rule misses whose statements begin otherwise -/
theorem misses_before {k : Keyword} {before : List String} (hp : (shown p).Passes k.text q)
    (h : ∀ name ∈ before, name ∈ statementNames ∧
      ∀ w ∈ openings name, ¬ w <+: k.text ∧ ¬ k.text <+: w) :
    ∀ name ∈ before, grammar.Misses ignorables name p := by
  intro name hname
  obtain ⟨hmem, hopenings⟩ := h name hname
  refine misses_of_openings hmem fun w hw hprefix => ?_
  rw [hp.rest] at hprefix
  rcases List.prefix_or_prefix_of_prefix hprefix (List.prefix_append k.text q.rest) with hw' | hw'
  · exact (hopenings w hw).1 hw'
  · exact (hopenings w hw).2 hw'

theorem shows_of_name (before : List String) {after : List String} {t : Tree AssemblyTag}
    (hnames : statementNames = before ++ name :: after)
    (hbefore : ∀ name ∈ before, grammar.Misses ignorables name p)
    (h : grammar.Shows ignorables name p t q) : grammar.Shows ignorables "statement" p t q := by
  have hlists : grammar.Lists ignorables statementClause.steps p [t] q := by
    show grammar.Lists ignorables [.anyOf statementNames] p [t] q
    rw [hnames]
    exact h.lists_anyOf before hbefore
  exact Grammar.shows_of_forms [] rule?_statement (List.forall_mem_nil _)
    (hlists.forms_single rfl)

/-- **A statement is found where its tokens stand**, if nothing after them can be part of it. -/
theorem shows_statement {x : Statement} (h : Spread x.tokens p q) (hq : Ends q) :
    grammar.Shows ignorables "statement" p x.tree q := by
  have hown := shows_own h hq
  cases x with
  | assign t e => exact shows_of_name [] rfl (List.forall_mem_nil _) hown
  | call l =>
    obtain ⟨p₁, hp₁, -, -⟩ := h.uncons
    exact shows_of_name ["assign"] rfl (misses_before hp₁ (by decide)) hown
  | stop =>
    obtain ⟨p₁, hp₁, -, -⟩ := h.uncons
    exact shows_of_name ["assign", "call"] rfl (misses_before hp₁ (by decide)) hown
  | goto l hl =>
    -- the rule before begins alike, and wants the label that is ruled out here
    obtain ⟨p₁, p₂, hp₁, hblank, hlabel, hclear⟩ := h.pair
    have hend : grammar.Misses ignorables "end" p := misses_tagged rule?_end
      (Grammar.breaks_leaf anchored_end (look_end_of_label hl hp₁ hblank hlabel hclear))
    refine shows_of_name ["assign", "call", "end"] rfl ?_ hown
    have hbefore : ∀ name ∈ ["assign", "call"], grammar.Misses ignorables name p :=
      misses_before hp₁ (by decide)
    simp only [List.forall_mem_cons] at hbefore ⊢
    exact ⟨hbefore.1, hbefore.2.1, hend, List.forall_mem_nil _⟩
  | branch c l =>
    obtain ⟨p₁, hp₁, -, -⟩ := h.uncons
    exact shows_of_name ["assign", "call", "end", "goto"] rfl (misses_before hp₁ (by decide)) hown
  | push e =>
    obtain ⟨p₁, hp₁, -, -⟩ := h.uncons
    exact shows_of_name ["assign", "call", "end", "goto", "branch"] rfl
      (misses_before hp₁ (by decide)) hown
  | pop t =>
    obtain ⟨p₁, hp₁, -, -⟩ := h.uncons
    exact shows_of_name ["assign", "call", "end", "goto", "branch", "push"] rfl
      (misses_before hp₁ (by decide)) hown
  | giveBack =>
    obtain ⟨p₁, hp₁, -, -⟩ := h.uncons
    exact shows_of_name ["assign", "call", "end", "goto", "branch", "push", "pop"] rfl
      (misses_before hp₁ (by decide)) hown

theorem isSome_tag_statement (x : Statement) : x.tree.tag.isSome = true := by
  cases x <;> rfl

/-! ## lines -/

def labeledClause : Clause AssemblyTag := tagged .labeled [.call "statement", .leaf ":" .hide, labelStep]

def unlabeledClause : Clause AssemblyTag where
  steps := [.call "statement"]

theorem rule?_line : grammar.rule? "line" = some ⟨"line", [labeledClause, unlabeledClause]⟩ := rfl

/-- the row ends here, ignorable text aside -/
def RowEnds (q : Place) : Prop := (shown q).rest = [] ∨ (shown q).rest.head? = some '\n'

theorem RowEnds.ends (h : RowEnds q) : Ends q := by
  intro c hc
  rcases h with h | h
  · rw [h] at hc
    cases hc
  · rw [h] at hc
    cases hc
    exact .inl rfl

/-- **A line is found where its tokens stand**, if its row ends after them. -/
theorem shows_line {x : Line} (h : Spread x.tokens p q) (hq : RowEnds q) :
    grammar.Shows ignorables "line" p x.tree q := by
  obtain ⟨p₁, hstatement, hlabel⟩ := Spread.split _ h
  obtain ⟨statement, label?⟩ := x
  cases label? with
  | none =>
    obtain rfl := hlabel.eq
    have hshows := shows_statement hstatement hq.ends
    have hcolon : lookAlong? ignorables (symbolPattern ":" [':']) q.rest q = none := by
      refine look_symbol_eq_none ":" (by decide) fun hprefix => ?_
      obtain ⟨more, hmore⟩ := hprefix
      rcases hq with hq | hq <;> simp [← hmore] at hq
    have hlabeled : grammar.Breaks ignorables labeledClause.steps p :=
      hshows.breaks (Grammar.breaks_leaf anchored_colon hcolon)
    have hlists : grammar.Lists ignorables unlabeledClause.steps p [statement.tree] q :=
      hshows.lists (grammar.lists_nil q)
    exact Grammar.shows_of_forms [labeledClause] rule?_line
      (List.forall_mem_singleton.mpr hlabeled.fails) (hlists.forms_single rfl)
  | some l =>
    obtain ⟨p₂, hp₂, -, hl⟩ := hlabel.uncons
    have hends : Ends p₁ := by
      intro c hc
      rw [hp₂.rest] at hc
      cases hc
      exact .inr rfl
    have hlists : grammar.Lists ignorables labeledClause.steps p [statement.tree, l.tree] q :=
      (shows_statement hstatement hends).lists
        (lists_symbol anchored_colon (by decide) hp₂ (lists_label hl))
    refine Grammar.shows_of_forms [] rule?_line (List.forall_mem_nil _) (hlists.forms rfl ?_)
    simp [isSome_tag_statement, isSome_tag_label]

theorem isSome_tag_line (x : Line) : x.tree.tag.isSome = true := by
  obtain ⟨statement, label?⟩ := x
  cases label? with
  | none => exact isSome_tag_statement statement
  | some l => rfl

theorem misses_line (h : (shown p).rest = []) : grammar.Misses ignorables "line" p := by
  have hstatement : grammar.Misses ignorables "statement" p := by
    refine Grammar.misses_of_fails rule?_statement (List.forall_mem_singleton.mpr ?_)
    refine (Grammar.breaks_anyOf fun name hname => misses_of_openings hname fun w hw => ?_).fails
    have hne : w ≠ [] := by
      revert w
      revert name
      decide
    rw [h, List.prefix_nil]
    exact hne
  refine Grammar.misses_of_fails rule?_line ?_
  simp only [List.forall_mem_cons]
  have hlabeled : grammar.Breaks ignorables labeledClause.steps p := hstatement.breaks
  have hunlabeled : grammar.Breaks ignorables unlabeledClause.steps p := hstatement.breaks
  exact ⟨hlabeled.fails, hunlabeled.fails, List.forall_mem_nil _⟩

end

end Assembly

end Packrat
