import Mathlib.Data.List.Forall2
import Packrat.Proofs.Derivation
import Packrat.Proofs.Meaning
import Packrat.Proofs.Mirror

/-!
# Graphs that stand for grammars

* `Graph.Refers`, `Step.Stands`, `Clause.Stands`, `Rule.Stands`, `Grammar.Stands`
                        the parser with that number stands for the name, the step and so on: said of
                        the nodes of any graph, however it was made;
* `Reads.parses`        what a grammar says, the parsers of a graph that stands for it do;
* `Parses.reads_rule`   and what they do, the grammar says;
* `Grammar.Stands.settles_iff`   without a memory, a rule of the graph is read as its name says.
-/

namespace Packrat

section
variable {τ : Type} (g : Graph τ)

/-- the parser refers to the rule of that name, or to none if there is none -/
def Graph.Refers (name : String) (n : Nat) : Prop :=
  g.nodes[n]? = some (.reference name (g.ruleIndex? name))

/-- the parser stands for the step -/
def Step.Stands : Step τ → Nat → Prop
  | .leaf source role, n =>
    g.nodes[n]? = some (.leaf source (Pattern.anchored source).toOption role)
  | .call name, n => g.Refers name n
  | .repetition name bound shape, n =>
    ∃ inner, g.nodes[n]? = some (.repetition inner bound shape) ∧ g.Refers name inner
  | .maybe name, n => ∃ inner, g.nodes[n]? = some (.optional inner) ∧ g.Refers name inner
  | .anyOf names, n =>
    ∃ choices, g.nodes[n]? = some (.alternative choices .first) ∧
      List.Forall₂ g.Refers names choices

/-- the parser stands for the clause: it is the sequence of its steps -/
def Clause.Stands (c : Clause τ) (n : Nat) : Prop :=
  ∃ parts, g.nodes[n]? = some (.sequence parts c.assembly) ∧
    List.Forall₂ (Step.Stands g) c.steps parts

/-- the parser stands for the ordered choice of the clauses; for a single clause it may be that of
the clause itself -/
def Rule.Stands (rule : Rule τ) (n : Nat) : Prop :=
  ∃ choices, List.Forall₂ (Clause.Stands g) rule.clauses choices ∧
    (choices = [n] ∨ g.nodes[n]? = some (.alternative choices .first))

/-- the rules of the graph are those that the names of the grammar are defined by -/
structure Grammar.Stands (grammar : Grammar τ) : Prop where
  undefined : ∀ {name}, grammar.rule? name = none → g.ruleIndex? name = none
  defined : ∀ {name rule}, grammar.rule? name = some rule →
    ∃ i root, g.ruleIndex? name = some i ∧ g.root? i = some root ∧ rule.Stands g root

end

section
variable {τ : Type} {g : Graph τ} {grammar : Grammar τ} {ignorables : List Pattern}

theorem map_applyOne_first (result : Option (Fragment τ)) :
    result.map (Shape.first : Shape τ).applyOne = result := by
  cases result <;> rfl

/-- what a sequence does is what its parts do, and a failure goes back -/
theorem Parses.sequence_inv {n : Nat} {parts : List Nat} {shape : Shape τ} {r r' : Reader}
    {result : Option (Fragment τ)} (hnode : g.nodes[n]? = some (.sequence parts shape))
    (h : Parses g ignorables n r result r') : result = none → { r' with place := r.place } = r' := by
  intro hnone
  cases h
  case broken hother hall => rfl
  case sequence hother hall => cases hnone
  all_goals simp_all

/-- the parser of a rule tries its clauses in order.  If there is a single one the choice is left
out, which makes no difference: a clause that fails has gone back already. -/
theorem Rule.Stands.parses {rule : Rule τ} {n : Nat} {choices : List Nat} {r r' : Reader}
    {result : Option (Fragment τ)} (hchoices : List.Forall₂ (Clause.Stands g) rule.clauses choices)
    (hwhole : choices = [n] ∨ g.nodes[n]? = some (.alternative choices .first))
    (h : ParsesFirst g ignorables choices r result r') : Parses g ignorables n r result r' := by
  rcases hwhole with rfl | hnode
  · obtain ⟨c, -, ⟨parts, hnode, -⟩, -, -⟩ := List.forall₂_cons_right_iff.mp hchoices
    cases h with
    | hit hchoice => exact hchoice
    | next hchoice hnil =>
      cases hnil
      rw [hchoice.sequence_inv hnode rfl]
      exact hchoice
  · have hparses := Parses.alternative hnode h
    rw [map_applyOne_first] at hparses
    exact hparses

/-! ## from names to numbers -/

mutual

/-- **What a name reads, a parser that refers to it does.** -/
theorem Reads.parses {name : String} {n : Nat} {r r' : Reader} {result : Option (Fragment τ)}
    (hg : grammar.Stands g) (h : Reads grammar ignorables name r result r')
    (hn : g.Refers name n) : Parses g ignorables n r result r' := by
  match h with
  | .undefined hrule =>
    rw [Graph.Refers, hg.undefined hrule] at hn
    exact .undefined hn
  | .rule hrule hclauses =>
    obtain ⟨i, root, hindex, hroot, choices, hchoices, hwhole⟩ := hg.defined hrule
    rw [Graph.Refers, hindex] at hn
    exact .reference i hn hroot (Rule.Stands.parses hchoices hwhole (hclauses.parses hg hchoices))

theorem ReadsClauses.parses {clauses : List (Clause τ)} {choices : List Nat} {r r' : Reader}
    {result : Option (Fragment τ)} (hg : grammar.Stands g)
    (h : ReadsClauses grammar ignorables clauses r result r')
    (hn : List.Forall₂ (Clause.Stands g) clauses choices) :
    ParsesFirst g ignorables choices r result r' := by
  match h, hn with
  | .nil, .nil => exact .nil
  | .hit hc, .cons hn _ => exact .hit (hc.parses hg hn)
  | .next hc hcs, .cons hn hns => exact .next (hc.parses hg hn) (hcs.parses hg hns)

theorem ReadsClause.parses {c : Clause τ} {n : Nat} {r r' : Reader} {result : Option (Fragment τ)}
    (hg : grammar.Stands g) (h : ReadsClause grammar ignorables c r result r')
    (hn : c.Stands g n) : Parses g ignorables n r result r' := by
  obtain ⟨parts, hnode, hparts⟩ := hn
  match h with
  | .whole hsteps => exact .sequence hnode (hsteps.parses hg hparts)
  | .broken hsteps => exact .broken hnode (hsteps.parses hg hparts)

theorem ReadsSteps.parses {steps : List (Step τ)} {parts : List Nat} {r r' : Reader}
    {trees : Option (List (Tree τ))} (hg : grammar.Stands g)
    (h : ReadsSteps grammar ignorables steps r trees r')
    (hn : List.Forall₂ (Step.Stands g) steps parts) : ParsesAll g ignorables parts r trees r' := by
  match h, hn with
  | .nil, .nil => exact .nil
  | .fail hs, .cons hn _ => exact .fail (hs.parses hg hn)
  | .next found trees hs hss, .cons hn hns =>
    exact .next found trees (hs.parses hg hn) (hss.parses hg hns)

theorem ReadsStep.parses {s : Step τ} {n : Nat} {r r' : Reader} {result : Option (Fragment τ)}
    (hg : grammar.Stands g) (h : ReadsStep grammar ignorables s r result r')
    (hn : s.Stands g n) : Parses g ignorables n r result r' := by
  match h with
  | .leaf hpattern hlook =>
    rw [Step.Stands, hpattern] at hn
    exact .leaf hn hlook
  | .miss hpattern hlook =>
    rw [Step.Stands, hpattern] at hn
    exact .miss hn hlook
  | .invalid hpattern =>
    rw [Step.Stands, hpattern] at hn
    exact .invalid hn
  | .call hname => exact hname.parses hg hn
  | .repetition hrounds hleast =>
    obtain ⟨inner, hnode, hinner⟩ := hn
    exact .repetition _ _ hnode (hrounds.parses hg hinner) hleast
  | .tooFew hrounds hleast =>
    obtain ⟨inner, hnode, hinner⟩ := hn
    exact .tooFew _ _ hnode (hrounds.parses hg hinner) hleast
  | .maybe result hname =>
    obtain ⟨inner, hnode, hinner⟩ := hn
    exact .optional result hnode (hname.parses hg hinner)
  | .anyOf hnames =>
    obtain ⟨choices, hnode, hchoices⟩ := hn
    have hparses := Parses.alternative hnode (hnames.parses hg hchoices)
    rw [map_applyOne_first] at hparses
    exact hparses

theorem ReadsNames.parses {names : List String} {choices : List Nat} {r r' : Reader}
    {result : Option (Fragment τ)} (hg : grammar.Stands g)
    (h : ReadsNames grammar ignorables names r result r')
    (hn : List.Forall₂ g.Refers names choices) : ParsesFirst g ignorables choices r result r' := by
  match h, hn with
  | .nil, .nil => exact .nil
  | .hit hname, .cons hn _ => exact .hit (hname.parses hg hn)
  | .next hname hnames, .cons hn hns => exact .next (hname.parses hg hn) (hnames.parses hg hns)

theorem ReadsRounds.parses {name : String} {n count : Nat} {r r' : Reader} {trees : List (Tree τ)}
    (hg : grammar.Stands g) (h : ReadsRounds grammar ignorables name r trees count r')
    (hn : g.Refers name n) : ParsesRounds g ignorables n r trees count r' := by
  match h with
  | .stop hname => exact .stop (hname.parses hg hn)
  | .stall found hname hstill => exact .stall found (hname.parses hg hn) hstill
  | .round found hname hmoved hrounds =>
    exact .round found (hname.parses hg hn) hmoved (hrounds.parses hg hn)

end

/-! ## from numbers to names -/

theorem ReadsStep.of_call {name : String} {r r' : Reader} {result : Option (Fragment τ)}
    (h : ReadsStep grammar ignorables (.call name) r result r') :
    Reads grammar ignorables name r result r' := by
  cases h with
  | call h => exact h

/-! A node tells what it can stand for. -/

variable (g) in
/-- what a step is if this node stands for it -/
def Step.Fits (s : Step τ) : Option (Node τ) → Prop
  | none => False
  | some (.leaf source pattern role) =>
    s = .leaf source role ∧ pattern = (Pattern.anchored source).toOption
  | some (.sequence _ _) => False
  | some (.alternative choices shape) =>
    ∃ names, s = .anyOf names ∧ shape = .first ∧ List.Forall₂ g.Refers names choices
  | some (.repetition inner bound shape) =>
    ∃ name, s = .repetition name bound shape ∧ g.Refers name inner
  | some (.optional inner) => ∃ name, s = .maybe name ∧ g.Refers name inner
  | some (.reference name rule) => s = .call name ∧ rule = g.ruleIndex? name

theorem Step.Stands.fits {s : Step τ} {n : Nat} {node : Option (Node τ)} (hn : s.Stands g n)
    (hnode : g.nodes[n]? = node) : s.Fits g node := by
  subst hnode
  cases s with
  | leaf source role =>
    rw [show g.nodes[n]? = _ from hn]
    exact ⟨rfl, rfl⟩
  | call name =>
    rw [show g.nodes[n]? = _ from hn]
    exact ⟨rfl, rfl⟩
  | repetition name bound shape =>
    obtain ⟨inner, hnode, hinner⟩ := hn
    rw [hnode]
    exact ⟨name, rfl, hinner⟩
  | maybe name =>
    obtain ⟨inner, hnode, hinner⟩ := hn
    rw [hnode]
    exact ⟨name, rfl, hinner⟩
  | anyOf names =>
    obtain ⟨choices, hnode, hchoices⟩ := hn
    rw [hnode]
    exact ⟨names, rfl, rfl, hchoices⟩

variable (g) in
/-- what the clauses of a rule are if this node stands for it -/
def Rule.Fits (rule : Rule τ) : Option (Node τ) → Prop
  | some (.sequence parts shape) =>
    ∃ c : Clause τ, rule.clauses = [c] ∧ shape = c.assembly ∧
      List.Forall₂ (Step.Stands g) c.steps parts
  | some (.alternative choices shape) =>
    shape = .first ∧ List.Forall₂ (Clause.Stands g) rule.clauses choices
  | _ => False

theorem Rule.Stands.fits {rule : Rule τ} {n : Nat} {node : Option (Node τ)} (hn : rule.Stands g n)
    (hnode : g.nodes[n]? = node) : rule.Fits g node := by
  subst hnode
  obtain ⟨choices, hchoices, rfl | hnode⟩ := hn
  · obtain ⟨c, cs, ⟨parts, hnode, hparts⟩, hnil, hclauses⟩ :=
      List.forall₂_cons_right_iff.mp hchoices
    cases hnil
    rw [hnode]
    exact ⟨c, hclauses, rfl, hparts⟩
  · rw [hnode]
    exact ⟨rfl, hchoices⟩

/-- a parser that stands for a clause stands for a rule that has no other -/
theorem Clause.Stands.alone {c : Clause τ} {n : Nat} (hn : c.Stands g n) :
    (⟨"", [c]⟩ : Rule τ).Stands g n :=
  ⟨[n], .cons hn .nil, .inl rfl⟩

theorem ReadsClauses.of_single {c : Clause τ} {r r' : Reader} {result : Option (Fragment τ)}
    (h : ReadsClauses grammar ignorables [c] r result r') :
    ReadsClause grammar ignorables c r result r' := by
  cases h with
  | hit hc => exact hc
  | next hc hnil =>
    cases hnil
    cases hc with
    | broken hsteps =>
      have hbroken := ReadsClause.broken hsteps
      exact hbroken

/-- a rule with that number stands for the definition of the name -/
theorem Grammar.Stands.rule (hg : grammar.Stands g) {name : String} {i root : Nat}
    (hindex : some i = g.ruleIndex? name) (hroot : g.root? i = some root) :
    ∃ rule, grammar.rule? name = some rule ∧ rule.Stands g root := by
  cases hrule : grammar.rule? name with
  | none =>
    rw [hg.undefined hrule] at hindex
    cases hindex
  | some rule =>
    obtain ⟨i', root', hindex', hroot', hstands⟩ := hg.defined hrule
    cases hindex.trans hindex'
    cases hroot.symm.trans hroot'
    exact ⟨rule, rfl, hstands⟩

theorem Grammar.Stands.rule_eq_none (hg : grammar.Stands g) {name : String}
    (h : ∀ i, g.ruleIndex? name = some i → g.root? i = none) : grammar.rule? name = none := by
  cases hrule : grammar.rule? name with
  | none => rfl
  | some rule =>
    obtain ⟨i, root, hindex, hroot, -⟩ := hg.defined hrule
    rw [h i hindex] at hroot
    cases hroot

theorem anchored_eq_ok {source : String} {pattern : Pattern}
    (h : some pattern = (Pattern.anchored source).toOption) :
    Pattern.anchored source = .ok pattern := by
  cases hpattern : Pattern.anchored source with
  | ok found =>
    rw [hpattern] at h
    cases h
    rfl
  | error e =>
    rw [hpattern] at h
    cases h

theorem anchored_eq_error {source : String} (h : none = (Pattern.anchored source).toOption) :
    ∃ e, Pattern.anchored source = .error e := by
  cases hpattern : Pattern.anchored source with
  | ok found =>
    rw [hpattern] at h
    cases h
  | error e => exact ⟨e, rfl⟩

mutual

/-- **What a parser that stands for a step does, the step reads.** -/
theorem Parses.reads_step {s : Step τ} {n : Nat} {r r' : Reader} {result : Option (Fragment τ)}
    (hg : grammar.Stands g) (h : Parses g ignorables n r result r') (hn : s.Stands g n) :
    ReadsStep grammar ignorables s r result r' := by
  match h with
  | .absent hnode => exact False.elim (hn.fits hnode)
  | .leaf hnode hlook =>
    obtain ⟨rfl, hpattern⟩ := hn.fits hnode
    exact .leaf (anchored_eq_ok hpattern) hlook
  | .miss hnode hlook =>
    obtain ⟨rfl, hpattern⟩ := hn.fits hnode
    exact .miss (anchored_eq_ok hpattern) hlook
  | .invalid hnode =>
    obtain ⟨rfl, hpattern⟩ := hn.fits hnode
    obtain ⟨e, he⟩ := anchored_eq_error hpattern
    exact .invalid he
  | .sequence hnode _ => exact False.elim (hn.fits hnode)
  | .broken hnode _ => exact False.elim (hn.fits hnode)
  | .alternative hnode hfirst =>
    obtain ⟨names, rfl, rfl, hchoices⟩ := hn.fits hnode
    rw [map_applyOne_first]
    exact .anyOf (hfirst.reads_names hg hchoices)
  | .repetition bound shape hnode hrounds hleast =>
    obtain ⟨name, rfl, hinner⟩ := hn.fits hnode
    exact .repetition (hrounds.reads_rounds hg hinner) hleast
  | .tooFew bound shape hnode hrounds hleast =>
    obtain ⟨name, rfl, hinner⟩ := hn.fits hnode
    exact .tooFew (hrounds.reads_rounds hg hinner) hleast
  | .optional part hnode hpart =>
    obtain ⟨name, rfl, hinner⟩ := hn.fits hnode
    exact .maybe part (hpart.reads_step (s := .call name) hg hinner).of_call
  | .reference i hnode hroot hinner =>
    obtain ⟨rfl, hindex⟩ := hn.fits hnode
    obtain ⟨rule, hrule, hstands⟩ := hg.rule hindex hroot
    exact .call (.rule hrule (hinner.reads_rule hg hstands))
  | .rootless hnode hroot =>
    obtain ⟨rfl, hindex⟩ := hn.fits hnode
    refine .call (.undefined (hg.rule_eq_none fun i hi => ?_))
    cases hindex.trans hi
    exact hroot
  | .undefined hnode =>
    obtain ⟨rfl, hindex⟩ := hn.fits hnode
    refine .call (.undefined (hg.rule_eq_none fun i hi => ?_))
    cases hindex.trans hi

theorem Parses.reads_rule {rule : Rule τ} {n : Nat} {r r' : Reader}
    {result : Option (Fragment τ)} (hg : grammar.Stands g)
    (h : Parses g ignorables n r result r') (hn : rule.Stands g n) :
    ReadsClauses grammar ignorables rule.clauses r result r' := by
  match h with
  | .sequence hnode hall =>
    obtain ⟨c, hclauses, rfl, hparts⟩ := hn.fits hnode
    rw [hclauses]
    exact .hit (.whole (hall.reads_steps hg hparts))
  | .broken hnode hall =>
    obtain ⟨c, hclauses, rfl, hparts⟩ := hn.fits hnode
    rw [hclauses]
    exact .next (.broken (hall.reads_steps hg hparts)) .nil
  | .alternative hnode hfirst =>
    obtain ⟨rfl, hchoices⟩ := hn.fits hnode
    rw [map_applyOne_first]
    exact hfirst.reads_clauses hg hchoices
  | .absent hnode => exact False.elim (hn.fits hnode)
  | .leaf hnode _ => exact False.elim (hn.fits hnode)
  | .miss hnode _ => exact False.elim (hn.fits hnode)
  | .invalid hnode => exact False.elim (hn.fits hnode)
  | .repetition _ _ hnode _ _ => exact False.elim (hn.fits hnode)
  | .tooFew _ _ hnode _ _ => exact False.elim (hn.fits hnode)
  | .optional _ hnode _ => exact False.elim (hn.fits hnode)
  | .reference _ hnode _ _ => exact False.elim (hn.fits hnode)
  | .rootless hnode _ => exact False.elim (hn.fits hnode)
  | .undefined hnode => exact False.elim (hn.fits hnode)

theorem ParsesFirst.reads_clauses {clauses : List (Clause τ)} {choices : List Nat} {r r' : Reader}
    {result : Option (Fragment τ)} (hg : grammar.Stands g)
    (h : ParsesFirst g ignorables choices r result r')
    (hn : List.Forall₂ (Clause.Stands g) clauses choices) :
    ReadsClauses grammar ignorables clauses r result r' := by
  match h, hn with
  | .nil, .nil => exact .nil
  | .hit hchoice, .cons hn _ => exact .hit (hchoice.reads_rule hg hn.alone).of_single
  | .next hchoice hfirst, .cons hn hns =>
    exact .next (hchoice.reads_rule hg hn.alone).of_single (hfirst.reads_clauses hg hns)

theorem ParsesFirst.reads_names {names : List String} {choices : List Nat} {r r' : Reader}
    {result : Option (Fragment τ)} (hg : grammar.Stands g)
    (h : ParsesFirst g ignorables choices r result r')
    (hn : List.Forall₂ g.Refers names choices) :
    ReadsNames grammar ignorables names r result r' := by
  match h, hn with
  | .nil, .nil => exact .nil
  | .hit hchoice, .cons hn _ => exact .hit (hchoice.reads_step (s := .call _) hg hn).of_call
  | .next hchoice hfirst, .cons hn hns =>
    exact .next (hchoice.reads_step (s := .call _) hg hn).of_call (hfirst.reads_names hg hns)

theorem ParsesAll.reads_steps {steps : List (Step τ)} {parts : List Nat} {r r' : Reader}
    {trees : Option (List (Tree τ))} (hg : grammar.Stands g)
    (h : ParsesAll g ignorables parts r trees r')
    (hn : List.Forall₂ (Step.Stands g) steps parts) :
    ReadsSteps grammar ignorables steps r trees r' := by
  match h, hn with
  | .nil, .nil => exact .nil
  | .fail hpart, .cons hn _ => exact .fail (hpart.reads_step hg hn)
  | .next found trees hpart hall, .cons hn hns =>
    exact .next found trees (hpart.reads_step hg hn) (hall.reads_steps hg hns)

theorem ParsesRounds.reads_rounds {name : String} {n count : Nat} {r r' : Reader}
    {trees : List (Tree τ)} (hg : grammar.Stands g)
    (h : ParsesRounds g ignorables n r trees count r') (hn : g.Refers name n) :
    ReadsRounds grammar ignorables name r trees count r' := by
  match h with
  | .stop hinner => exact .stop (hinner.reads_step (s := .call name) hg hn).of_call
  | .stall found hinner hstill =>
    exact .stall found (hinner.reads_step (s := .call name) hg hn).of_call hstill
  | .round found hinner hmoved hrounds =>
    exact .round found (hinner.reads_step (s := .call name) hg hn).of_call hmoved
      (hrounds.reads_rounds hg hn)

end

/-- **Without a memory, an attempt at a rule of the graph comes to what its name reads.** -/
theorem Grammar.Stands.settles_iff (hg : grammar.Stands g) {name : String} {i : Nat}
    (hindex : g.ruleIndex? name = some i) {l : Ledger τ} (hl : l.memo = none) {r' : Reader}
    {result : Option (Fragment τ)} :
    (∃ k l', Settles g ignorables k (l.enter g i) result l' ∧ l'.reader = r') ↔
      Reads grammar ignorables name l.reader result r' := by
  have habsent : l.known? (l.key i) = none := Ledger.known?_eq_none hl _
  constructor
  · rintro ⟨k, l', h, rfl⟩
    cases hrule : grammar.rule? name with
    | none =>
      rw [hg.undefined hrule] at hindex
      cases hindex
    | some rule =>
      obtain ⟨i', root, hindex', hroot, hstands⟩ := hg.defined hrule
      cases hindex.symm.trans hindex'
      rw [Ledger.enter_absent hroot habsent] at h
      obtain ⟨j, l₁, h₁, rfl, -⟩ := h.rule_inv
      have hparses := h₁.parses (Ledger.begun_memo_none hl i)
      rw [Ledger.begun_reader] at hparses
      exact .rule hrule (hparses.reads_rule hg hstands)
  · intro h
    cases h with
    | undefined hrule =>
      rw [hg.undefined hrule] at hindex
      cases hindex
    | rule hrule hclauses =>
      obtain ⟨i', root, hindex', hroot, choices, hchoices, hwhole⟩ := hg.defined hrule
      cases hindex.symm.trans hindex'
      have hparses := Rule.Stands.parses hchoices hwhole (hclauses.parses hg hchoices)
      obtain ⟨k, l₁, hk, rfl, -⟩ :=
        hparses.reads (Ledger.begun_memo_none hl i) (Ledger.begun_reader l i)
      exact ⟨_, _, hk.enter_of_root habsent hroot, rfl⟩

end

end Packrat
