import Packrat.Proofs.Compiled
import Packrat.Proofs.Unaided

/-!
# Steps in a rule of their own

Some steps of a clause can be put into a rule of their own, and the rule called in their place.

* `Grammar.Redeclares`   another grammar declares the names again, with clauses that read at least what
                         the old ones would read there;
* `Reads.redeclared`     then those names read there what they read before;
* `ReadsSteps.append`, `ReadsSteps.append_inv`   steps in a row, and what they find;
* `ReadsClause.outlined` a clause that splices its trees reads the same if some of its steps are called
                         by the name of a helper;
* `Grammar.Factors`      the other grammar has steps of one clause in such a helper;
* `Grammar.Fresh`        a name that the grammar does not use;
* `Grammar.opening_uncut_iff`   if nothing is cut off, a rule comes to what its name reads;
* `factoring_unseen`     so texts are parsed alike with both grammars.
-/

namespace Packrat

/-- the names of the rules that a step calls -/
def Step.names {τ : Type} : Step τ → List String
  | .leaf _ _ => []
  | .call name => [name]
  | .repetition name _ _ => [name]
  | .maybe name => [name]
  | .anyOf names => names

section
variable {τ : Type} {grammar other : Grammar τ} {ignorables : List Pattern}

/-! ## names that are declared again -/

/-- the clause calls names that have `P` only, and what it would read with the other grammar, `c'`
reads there -/
structure Clause.Redeclared (ignorables : List Pattern) (P : String → Prop) (other : Grammar τ)
    (c c' : Clause τ) : Prop where
  names : ∀ s ∈ c.steps, ∀ n ∈ s.names, P n
  reads : ∀ {r result r'}, ReadsClause other ignorables c r result r' →
    ReadsClause other ignorables c' r result r'

/-- the names that have `P` are declared in the other grammar as well, clause by clause -/
structure Grammar.Redeclares (ignorables : List Pattern) (grammar : Grammar τ)
    (P : String → Prop) (other : Grammar τ) : Prop where
  undefined : ∀ {name}, P name → grammar.rule? name = none → other.rule? name = none
  defined : ∀ {name rule}, P name → grammar.rule? name = some rule →
    ∃ rule', other.rule? name = some rule' ∧
      List.Forall₂ (Clause.Redeclared ignorables P other) rule.clauses rule'.clauses

section
variable {P : String → Prop}

mutual

/-- **A name that is declared again reads what it did.** -/
theorem Reads.redeclared (hg : grammar.Redeclares ignorables P other) {name : String}
    {r r' : Reader} {result : Option (Fragment τ)} (hname : P name)
    (h : Reads grammar ignorables name r result r') : Reads other ignorables name r result r' := by
  match h with
  | .undefined hrule => exact .undefined (hg.undefined hname hrule)
  | .rule hrule hclauses =>
    obtain ⟨rule', hrule', hall⟩ := hg.defined hname hrule
    exact .rule hrule' (hclauses.redeclared hg hall)

theorem ReadsClauses.redeclared (hg : grammar.Redeclares ignorables P other)
    {clauses clauses' : List (Clause τ)} {r r' : Reader} {result : Option (Fragment τ)}
    (hclauses : List.Forall₂ (Clause.Redeclared ignorables P other) clauses clauses')
    (h : ReadsClauses grammar ignorables clauses r result r') :
    ReadsClauses other ignorables clauses' r result r' := by
  match h, hclauses with
  | .nil, .nil => exact .nil
  | .hit hc, .cons hn _ => exact .hit (hn.reads (hc.redeclared hg hn.names))
  | .next hc hcs, .cons hn hns =>
    exact .next (hn.reads (hc.redeclared hg hn.names)) (hcs.redeclared hg hns)

theorem ReadsClause.redeclared (hg : grammar.Redeclares ignorables P other) {c : Clause τ}
    {r r' : Reader} {result : Option (Fragment τ)} (hc : ∀ s ∈ c.steps, ∀ n ∈ s.names, P n)
    (h : ReadsClause grammar ignorables c r result r') :
    ReadsClause other ignorables c r result r' := by
  match h with
  | .whole hsteps => exact .whole (hsteps.redeclared hg hc)
  | .broken hsteps => exact .broken (hsteps.redeclared hg hc)

theorem ReadsSteps.redeclared (hg : grammar.Redeclares ignorables P other) {steps : List (Step τ)}
    {r r' : Reader} {trees : Option (List (Tree τ))} (hsteps : ∀ s ∈ steps, ∀ n ∈ s.names, P n)
    (h : ReadsSteps grammar ignorables steps r trees r') :
    ReadsSteps other ignorables steps r trees r' := by
  match h with
  | .nil => exact .nil
  | .fail hs => exact .fail (hs.redeclared hg (hsteps _ List.mem_cons_self))
  | .next found trees hs hss =>
    exact .next found trees (hs.redeclared hg (hsteps _ List.mem_cons_self))
      (hss.redeclared hg fun s hs => hsteps s (List.mem_cons_of_mem _ hs))

theorem ReadsStep.redeclared (hg : grammar.Redeclares ignorables P other) {s : Step τ}
    {r r' : Reader} {result : Option (Fragment τ)} (hs : ∀ n ∈ s.names, P n)
    (h : ReadsStep grammar ignorables s r result r') : ReadsStep other ignorables s r result r' := by
  match h with
  | .leaf hpattern hlook => exact .leaf hpattern hlook
  | .miss hpattern hlook => exact .miss hpattern hlook
  | .invalid hpattern => exact .invalid hpattern
  | .call hname => exact .call (hname.redeclared hg (hs _ List.mem_cons_self))
  | .repetition hrounds hleast =>
    exact .repetition (hrounds.redeclared hg (hs _ List.mem_cons_self)) hleast
  | .tooFew hrounds hleast =>
    exact .tooFew (hrounds.redeclared hg (hs _ List.mem_cons_self)) hleast
  | .maybe result hname => exact .maybe result (hname.redeclared hg (hs _ List.mem_cons_self))
  | .anyOf hnames => exact .anyOf (hnames.redeclared hg hs)

theorem ReadsNames.redeclared (hg : grammar.Redeclares ignorables P other) {names : List String}
    {r r' : Reader} {result : Option (Fragment τ)} (hn : ∀ n ∈ names, P n)
    (h : ReadsNames grammar ignorables names r result r') :
    ReadsNames other ignorables names r result r' := by
  match h with
  | .nil => exact .nil
  | .hit hname => exact .hit (hname.redeclared hg (hn _ List.mem_cons_self))
  | .next hname hnames =>
    exact .next (hname.redeclared hg (hn _ List.mem_cons_self))
      (hnames.redeclared hg fun n hmem => hn n (List.mem_cons_of_mem _ hmem))

theorem ReadsRounds.redeclared (hg : grammar.Redeclares ignorables P other) {name : String}
    {count : Nat} {r r' : Reader} {trees : List (Tree τ)} (hname : P name)
    (h : ReadsRounds grammar ignorables name r trees count r') :
    ReadsRounds other ignorables name r trees count r' := by
  match h with
  | .stop hfail => exact .stop (hfail.redeclared hg hname)
  | .stall found hround hstill => exact .stall found (hround.redeclared hg hname) hstill
  | .round found hround hmoved hrounds =>
    exact .round found (hround.redeclared hg hname) hmoved (hrounds.redeclared hg hname)

end

end

/-! ## steps in a row -/

theorem ReadsSteps.append {ss ts : List (Step τ)} {r r₁ r' : Reader} {us : List (Tree τ)}
    {trees : Option (List (Tree τ))} (hs : ReadsSteps grammar ignorables ss r (some us) r₁)
    (ht : ReadsSteps grammar ignorables ts r₁ trees r') :
    ReadsSteps grammar ignorables (ss ++ ts) r (trees.map (us ++ ·)) r' := by
  induction ss generalizing r us with
  | nil =>
    cases hs
    have hnone : (([] : List (Tree τ)) ++ ·) = id := rfl
    rw [hnone, Option.map_id]
    exact ht
  | cons s ss ih =>
    generalize hresult : some us = result at hs
    cases hs with
    | fail _ => cases hresult
    | next found vs hstep hrest =>
      cases vs with
      | none => cases hresult
      | some vs =>
        cases hresult
        have hmore := ReadsSteps.next found _ hstep (ih hrest)
        have hassoc : ((found.collected ++ vs) ++ ·) = (found.collected ++ ·) ∘ (vs ++ ·) := by
          funext ws
          exact List.append_assoc ..
        rw [Option.map_map, ← hassoc] at hmore
        exact hmore

theorem ReadsSteps.append_fail {ss : List (Step τ)} (ts : List (Step τ)) {r r' : Reader}
    (h : ReadsSteps grammar ignorables ss r none r') :
    ReadsSteps grammar ignorables (ss ++ ts) r none r' := by
  induction ss generalizing r with
  | nil => cases h
  | cons s ss ih =>
    generalize hresult : none = result at h
    cases h with
    | fail hstep => exact .fail hstep
    | next found vs hstep hrest =>
      cases vs with
      | none => exact .next found none hstep (ih hrest)
      | some vs => cases hresult

/-- steps in a row fail with the first of them, or find what both parts find -/
theorem ReadsSteps.append_inv {ss ts : List (Step τ)} {r r' : Reader}
    {trees : Option (List (Tree τ))} (h : ReadsSteps grammar ignorables (ss ++ ts) r trees r') :
    (trees = none ∧ ReadsSteps grammar ignorables ss r none r') ∨
      ∃ us r₁ vs, ReadsSteps grammar ignorables ss r (some us) r₁ ∧
        ReadsSteps grammar ignorables ts r₁ vs r' ∧ trees = vs.map (us ++ ·) := by
  induction ss generalizing r trees with
  | nil =>
    have hnone : (([] : List (Tree τ)) ++ ·) = id := rfl
    refine .inr ⟨[], r, trees, .nil, h, ?_⟩
    rw [hnone, Option.map_id, id]
  | cons s ss ih =>
    cases h with
    | fail hstep => exact .inl ⟨rfl, .fail hstep⟩
    | next found vs hstep hrest =>
      rcases ih hrest with ⟨rfl, hfail⟩ | ⟨us, r₁, ws, hss, hts, rfl⟩
      · exact .inl ⟨rfl, .next found none hstep hfail⟩
      · refine .inr ⟨found.collected ++ us, r₁, ws, .next found (some us) hstep hss, hts, ?_⟩
        rw [Option.map_map]
        congr 1
        funext ws
        exact (List.append_assoc ..).symm

/-! ## steps called by the name of a helper -/

/-- a group among the trees that are spliced leaves its own where they were -/
theorem Shape.splice_group (tag : Option τ) (us vs ws : List (Tree τ)) :
    (splice tag).apply (us ++ (.branch none (vs.flatMap Tree.spliced) :: ws)) =
      (splice tag).apply (us ++ (vs ++ ws)) := by
  rw [apply, apply, List.flatMap_append, List.flatMap_append, List.flatMap_append, List.flatMap_cons]
  rfl

/-- steps of a clause in a row are called by the name of a helper; the clause splices its trees -/
inductive Clause.Outlines (helper : String) (run : List (Step τ)) : Clause τ → Clause τ → Prop
  | intro (left right : List (Step τ)) (tag : Option τ) :
      Outlines helper run ⟨left ++ run ++ right, some (.splice tag)⟩
        ⟨left ++ .call helper :: right, some (.splice tag)⟩

theorem ReadsSteps.called {helper : String} {run : List (Step τ)} {r r' : Reader}
    {vs : List (Tree τ)} (hrule : other.rule? helper = some ⟨helper, [{ steps := run }]⟩)
    (htwo : 2 ≤ run.length) (h : ReadsSteps other ignorables run r (some vs) r') :
    ReadsStep other ignorables (.call helper) r
      (some (.kept (.branch none (vs.flatMap Tree.spliced)))) r' := by
  -- a single step would pass its own result on instead of a group
  have hgroup : ({ steps := run } : Clause τ).assembly = .splice none := by
    have hone : run.length ≠ 1 := by omega
    exact if_neg hone
  have hclause := ReadsClause.whole (c := { steps := run }) h
  rw [hgroup] at hclause
  exact .call (.rule hrule (.hit hclause))

/-- **A clause reads the same if some of its steps are called by the name of a helper.**  The helper
groups their trees, and the clause splices them in again; where they fail, the helper goes back to
where they began, and the clause further still. -/
theorem ReadsClause.outlined {helper : String} {run : List (Step τ)} {c c' : Clause τ} {r r' : Reader}
    {result : Option (Fragment τ)} (hrule : other.rule? helper = some ⟨helper, [{ steps := run }]⟩)
    (htwo : 2 ≤ run.length) (hc : c.Outlines helper run c')
    (h : ReadsClause other ignorables c r result r') :
    ReadsClause other ignorables c' r result r' := by
  obtain ⟨left, right, tag⟩ := hc
  cases h with
  | whole hsteps =>
    rw [List.append_assoc] at hsteps
    obtain ⟨⟨⟩, -⟩ | ⟨us, r₁, rest, hleft, hrest, htrees⟩ := hsteps.append_inv
    obtain ⟨rfl, -⟩ | ⟨vs, r₂, ws, hrun, hright, rfl⟩ := hrest.append_inv
    · cases htrees
    · cases ws with
      | none => cases htrees
      | some ws =>
        cases htrees
        have hwhole := hleft.append (.next _ (some ws) (hrun.called hrule htwo) hright)
        have hclause := ReadsClause.whole
          (c := ⟨left ++ .call helper :: right, some (.splice tag)⟩) hwhole
        have hsame := Shape.splice_group tag us vs ws
        exact hsame ▸ hclause
  | @broken _ _ r' hsteps =>
    rw [List.append_assoc] at hsteps
    obtain ⟨-, hfail⟩ | ⟨us, r₁, rest, hleft, hrest, htrees⟩ := hsteps.append_inv
    · exact .broken (hfail.append_fail _)
    cases rest with
    | some rest => cases htrees
    | none =>
      obtain ⟨-, hfail⟩ | ⟨vs, r₂, ws, hrun, hright, hws⟩ := hrest.append_inv
      · have hmiss : Reads other ignorables helper r₁ none
            ((r'.moveTo r₁.place).moveTo r₁.place) :=
          .rule hrule (.next (.broken hfail) .nil)
        have hclause := ReadsClause.broken (c := ⟨left ++ .call helper :: right, some (.splice tag)⟩)
          (hleft.append (.fail (.call hmiss)))
        -- to go back again and again comes to the same as to go back once
        exact hclause
      · cases ws with
        | some ws => cases hws
        | none => exact .broken (hleft.append (.next _ none (hrun.called hrule htwo) hright))

/-! ## a grammar with a helper -/

/-- the lists differ in one place, by `R` -/
inductive DifferOnce {α : Type} (R : α → α → Prop) : List α → List α → Prop
  | here {a b : α} (as : List α) : R a b → DifferOnce R (a :: as) (b :: as)
  | there (a : α) {as bs : List α} : DifferOnce R as bs → DifferOnce R (a :: as) (a :: bs)

theorem DifferOnce.forall₂ {α : Type} {R : α → α → Prop} {as bs : List α} (h : DifferOnce R as bs) :
    List.Forall₂ (fun a b => a = b ∨ R a b) as bs := by
  induction h with
  | here as hab => exact .cons (.inr hab) (List.forall₂_same.mpr fun _ _ => .inl rfl)
  | there a _ ih => exact .cons (.inl rfl) ih

/-- one clause of the rule calls a helper -/
structure Rule.Outlines (helper : String) (run : List (Step τ)) (rule rule' : Rule τ) : Prop where
  name : rule'.name = rule.name
  clauses : DifferOnce (Clause.Outlines helper run) rule.clauses rule'.clauses

/-- the other grammar has two or more steps in a row of one clause, which splices its trees, in a rule
of their own; that helper has them as its only clause, without a shape, and it may be declared
anywhere -/
inductive Grammar.Factors (helper : String) (grammar other : Grammar τ) : Prop
  | intro (run : List (Step τ)) (before after : List (Rule τ)) :
      2 ≤ run.length →
      DifferOnce (Rule.Outlines helper run) grammar.rules (before ++ after) →
      other.rules = before ++ ⟨helper, [{ steps := run }]⟩ :: after →
      other.ignorables = grammar.ignorables → Factors helper grammar other

/-- no rule has the name, and no step calls it -/
def Grammar.Fresh (grammar : Grammar τ) (name : String) : Prop :=
  ∀ rule ∈ grammar.rules, rule.name ≠ name ∧ ∀ c ∈ rule.clauses, ∀ s ∈ c.steps, name ∉ s.names

instance (grammar : Grammar τ) (name : String) : Decidable (grammar.Fresh name) :=
  inferInstanceAs (Decidable (∀ rule ∈ grammar.rules, rule.name ≠ name ∧
    ∀ c ∈ rule.clauses, ∀ s ∈ c.steps, name ∉ s.names))

theorem Grammar.Fresh.rule?_eq_none {name : String} (h : grammar.Fresh name) :
    grammar.rule? name = none :=
  grammar.rule?_eq_none.mpr fun rule hrule => (h rule hrule).1

theorem rel_find? {α : Type} {R : α → α → Prop} {p : α → Bool} {as bs : List α}
    (h : List.Forall₂ R as bs) (hp : ∀ {a b}, R a b → p a = p b) :
    Option.Rel R (as.find? p) (bs.find? p) := by
  induction h with
  | nil => exact .none
  | @cons a b as bs hab _ ih =>
    rw [List.find?_cons, List.find?_cons, hp hab]
    cases p b with
    | true => exact .some hab
    | false => exact ih

namespace Grammar.Factors
variable {helper : String}

/-- the clauses of a rule that is kept, or has one of them changed -/
theorem clauses_of_rule {run : List (Step τ)} {rule rule' : Rule τ}
    (h : rule = rule' ∨ rule.Outlines helper run rule') :
    List.Forall₂ (fun c c' => c = c' ∨ c.Outlines helper run c') rule.clauses rule'.clauses := by
  rcases h with rfl | h
  · exact List.forall₂_same.mpr fun _ _ => .inl rfl
  · exact h.clauses.forall₂

/-- **A grammar with a helper declares the other names again.** -/
theorem redeclares (h : grammar.Factors helper other) (hfresh : grammar.Fresh helper) :
    grammar.Redeclares ignorables (· ≠ helper) other := by
  obtain ⟨run, before, after, htwo, hrules, hother, -⟩ := h
  -- looked up by any name, the rules other than the helper are alike in both grammars
  have hlook : ∀ name, Option.Rel (fun rule rule' => rule = rule' ∨ rule.Outlines helper run rule')
      (grammar.rule? name) ((before ++ after).find? fun rule => rule.name == name) := by
    intro name
    refine rel_find? hrules.forall₂ fun {rule rule'} h => ?_
    rcases h with rfl | h
    · rfl
    · rw [h.name]
  have hkept : ∀ {name}, name ≠ helper →
      other.rule? name = (before ++ after).find? fun rule => rule.name == name := by
    intro name hname
    have hmiss : (helper == name) = false := by simpa using hname.symm
    rw [rule?, hother, List.find?_append, List.find?_cons, hmiss, List.find?_append]
  have hhelper : other.rule? helper = some ⟨helper, [{ steps := run }]⟩ := by
    have hall := hlook helper
    rw [hfresh.rule?_eq_none] at hall
    generalize hfind : (before ++ after).find? (fun rule => rule.name == helper) = found at hall
    cases hall
    rw [List.find?_append, Option.or_eq_none_iff] at hfind
    rw [rule?, hother, List.find?_append, hfind.1, List.find?_cons, beq_self_eq_true]
    rfl
  constructor
  · intro name hname hrule
    have hall := hlook name
    rw [hrule, ← hkept hname] at hall
    generalize other.rule? name = found at hall ⊢
    cases hall
    rfl
  · intro name rule hname hrule
    have hall := hlook name
    rw [hrule, ← hkept hname] at hall
    generalize other.rule? name = found at hall ⊢
    cases hall with
    | @some _ rule' hsame =>
      have hmem : rule ∈ grammar.rules := List.mem_of_find?_eq_some hrule
      have hcalls : ∀ c ∈ rule.clauses, ∀ s ∈ c.steps, ∀ n ∈ s.names, n ≠ helper := by
        intro c hc s hs n hn heq
        exact (hfresh rule hmem).2 c hc s hs (heq ▸ hn)
      have hboth := (List.forall₂_and_left _ _).mpr ⟨hcalls, clauses_of_rule hsame⟩
      refine ⟨rule', rfl, hboth.imp fun c c' hc => ⟨hc.1, fun {r result r'} hreads => ?_⟩⟩
      rcases hc.2 with rfl | hclause
      · exact hreads
      · exact hreads.outlined hhelper htwo hclause

theorem ignorablesFor_eq (h : grammar.Factors helper other) (options : Options) :
    other.ignorablesFor options = grammar.ignorablesFor options := by
  obtain ⟨-, -, -, -, -, -, hignorables⟩ := h
  rw [ignorablesFor, ignorablesFor, hignorables]

theorem seenOf_eq (h : grammar.Factors helper other) (name text : String) (options : Options)
    (reader : Reader) (result : Option (Fragment τ)) :
    other.seenOf name text options reader result =
      grammar.seenOf name text options reader result := by
  cases result with
  | none => rfl
  | some found => rw [seenOf, seenOf, h.ignorablesFor_eq]

end Grammar.Factors

/-! ## runs that cut nothing off -/

/-- the same run, without a memory, which has cut off so much -/
structure Ledger.Unaided (cuts : Nat) (l l' : Ledger τ) : Prop where
  same : l' = l
  memo : l.memo = none
  cuts : l.tally.recursionCuts = cuts

theorem Ledger.Unaided.free (cuts : Nat) : Free (Ledger.Unaided (τ := τ) cuts) where
  congruence :=
    { same := fun h => by rw [h.same]
      here := fun _ => trivial
      moveTo := fun h _ => ⟨by rw [h.same], h.memo, h.cuts⟩
      readTo := fun h _ => ⟨by rw [h.same], h.memo, h.cuts⟩
      count := fun f hf h => ⟨by rw [h.same], h.memo, (hf _).trans h.cuts⟩
      note := fun _ _ h => ⟨by rw [h.same], h.memo, h.cuts⟩ }
  left h := h.memo
  right h := by rw [h.same]; exact h.memo
  note _ h := ⟨by rw [h.same], h.memo, h.cuts⟩

/-- without a memory nothing is cut off -/
theorem Settles.cuts_of_none {g : Graph τ} {k : Nat} {x : Move τ × Ledger τ}
    {result : Option (Fragment τ)} {l : Ledger τ} (h : Settles g ignorables k x result l)
    (hx : x.2.memo = none) : l.tally.recursionCuts = x.2.tally.recursionCuts := by
  obtain ⟨l', -, hl⟩ := h.transfer (Ledger.Unaided.free _) ⟨rfl, rfl, hx, rfl⟩
  exact hl.cuts

theorem Ledger.enter_of_none (g : Graph τ) {l : Ledger τ} (hl : l.memo = none) (rule : Nat) :
    (l.enter g rule).2.memo = none ∧
      (l.enter g rule).2.tally.recursionCuts = l.tally.recursionCuts := by
  cases hroot : g.root? rule with
  | none =>
    rw [enter_undefined hroot]
    exact ⟨hl, rfl⟩
  | some root =>
    rw [enter_absent hroot (known?_eq_none hl _), begun_of_none hl]
    exact ⟨hl, rfl⟩

namespace Grammar
variable (grammar)

/-- **If nothing is cut off, a rule comes to what its name reads**, with a memory or without one; and
what the name reads, the rule comes to with nothing cut off. -/
theorem opening_uncut_iff {name : String} {i : Nat} (h : grammar.compile.ruleIndex? name = some i)
    {text : String} {options : Options} {result : Option (Fragment τ)} {reader : Reader} :
    (∃ k l, Settles grammar.compile (grammar.ignorablesFor options) k
        (grammar.compile.opening i text options) result l ∧ l.reader = reader ∧
        l.tally.recursionCuts = 0) ↔
      Reads grammar (grammar.ignorablesFor options) name (Reader.first text.toList) result
        reader := by
  let fresh (memoize : Bool) : Ledger τ := (Machine.fresh (Reader.first text.toList) memoize).ledger
  have hfree : (∃ k l, Settles grammar.compile (grammar.ignorablesFor options) k
      ((fresh false).enter grammar.compile i) result l ∧ l.reader = reader) ↔
      Reads grammar (grammar.ignorablesFor options) name (Reader.first text.toList) result reader :=
    grammar.compile_stands.settles_iff h rfl
  have hopening : grammar.compile.opening i text options =
      (fresh options.memoize).enter grammar.compile i := rfl
  rw [← hfree, hopening]
  have hmirrors := Mirrors.fresh grammar.compile (grammar.ignorablesFor options)
    (Reader.first text.toList)
  cases options.memoize with
  | false =>
    constructor
    · rintro ⟨k, l, hk, hreader, -⟩
      exact ⟨k, l, hk, hreader⟩
    · rintro ⟨k, l, hk, hreader⟩
      obtain ⟨hmemo, hcuts⟩ := Ledger.enter_of_none grammar.compile (l := fresh false) rfl i
      exact ⟨k, l, hk, hreader, (hk.cuts_of_none hmemo).trans hcuts⟩
  | true =>
    constructor
    · rintro ⟨k, l, hk, rfl, hcuts⟩
      have hbegin : Settles grammar.compile (grammar.ignorablesFor options) k
          ((fresh true).begin grammar.compile (grammar.ignorablesFor options) (.rule i)) result l := hk
      obtain ⟨k₀, l₀, hk₀, hl₀⟩ := hmirrors.begin_off hcuts hbegin
      exact ⟨k₀, l₀, hk₀, hl₀.reader⟩
    · rintro ⟨k, l, hk, rfl⟩
      have hbegin : Settles grammar.compile (grammar.ignorablesFor options) k
          ((fresh false).begin grammar.compile (grammar.ignorablesFor options) (.rule i)) result l := hk
      obtain ⟨k', l', hk', hl'⟩ := hmirrors.begin_on hbegin
      exact ⟨k', l', hk', hl'.reader.symm, hl'.cuts⟩

/-- what is seen of a rule that comes to an end with nothing cut off, its name says -/
theorem reads_of_run? {name : String} {i : Nat} (h : grammar.compile.ruleIndex? name = some i)
    {text : String} {options : Options} {limit : Nat} {o : Outcome τ}
    (hrun : grammar.compile.run? limit i text options = some o)
    (hcuts : o.counters.recursionCuts = 0) :
    ∃ result reader, Reads grammar (grammar.ignorablesFor options) name (Reader.first text.toList)
        result reader ∧
      (o.result, o.consumed, o.trailing) = grammar.seenOf name text options reader result := by
  obtain ⟨k, result, l, hk, hl, hseen⟩ := Graph.shows_iff.mp ⟨limit, o, hrun, hcuts, rfl⟩
  have hreads := (grammar.opening_uncut_iff h).mp ⟨k, l, hk, rfl, hl⟩
  exact ⟨result, l.reader, hreads,
    hseen.symm.trans (grammar.compile_seenOf h text options options.memoize result l.reader)⟩

/-- a rule comes to one outcome, if its name reads the text; that shows what the name says, and
nothing is cut off -/
theorem run?_of_reads {name : String} {i : Nat} (h : grammar.compile.ruleIndex? name = some i)
    {text : String} {options : Options} {result : Option (Fragment τ)} {reader : Reader}
    (hreads : Reads grammar (grammar.ignorablesFor options) name (Reader.first text.toList) result
      reader) :
    ∃ o : Outcome τ, (∀ outcome, (∃ limit, grammar.compile.run? limit i text options =
        some outcome) ↔ outcome = o) ∧
      (o.result, o.consumed, o.trailing) = grammar.seenOf name text options reader result ∧
      o.counters.recursionCuts = 0 := by
  obtain ⟨k, l, hk, rfl, hcuts⟩ := (grammar.opening_uncut_iff h).mpr hreads
  obtain ⟨o, ho, hseen, htally⟩ := Graph.run?_iff_of_settles i text options hk
  refine ⟨o, ho, hseen.trans (grammar.compile_seenOf h text options options.memoize result _), ?_⟩
  have hzero : o.counters.tally.recursionCuts = 0 := by rw [htally, hcuts]
  exact hzero

theorem exists_rule_of_index {name : String} {i : Nat}
    (h : grammar.compile.ruleIndex? name = some i) : ∃ rule, grammar.rule? name = some rule := by
  cases hrule : grammar.rule? name with
  | none =>
    rw [grammar.compile_stands.undefined hrule] at h
    cases h
  | some rule => exact ⟨rule, rfl⟩

end Grammar

end

/-- **Steps in a rule of their own do not show.**  If some steps of a clause that splices its trees are
put into a helper of a fresh name, then each rule of the grammar parses each text as before, provided
that nothing was cut off: there is one outcome, with the same tree or the same error, the same offset
and as much left over, and again nothing is cut off. -/
theorem factoring_unseen {τ : Type} {helper : String} {grammar other : Grammar τ}
    (hfactors : grammar.Factors helper other) (hfresh : grammar.Fresh helper) {name : String} {i : Nat}
    (hindex : grammar.compile.ruleIndex? name = some i) (text : String) (options : Options)
    {limit : Nat} {o : Outcome τ} (hrun : grammar.compile.run? limit i text options = some o)
    (hcuts : o.counters.recursionCuts = 0) :
    ∃ i' o', other.compile.ruleIndex? name = some i' ∧
      (∀ outcome, (∃ limit, other.compile.run? limit i' text options = some outcome) ↔
        outcome = o') ∧
      (o'.result, o'.consumed, o'.trailing) = (o.result, o.consumed, o.trailing) ∧
      o'.counters.recursionCuts = 0 := by
  obtain ⟨result, reader, hreads, hseen⟩ := grammar.reads_of_run? hindex hrun hcuts
  obtain ⟨rule, hrule⟩ := grammar.exists_rule_of_index hindex
  have hname : name ≠ helper := by
    rintro rfl
    rw [hfresh.rule?_eq_none] at hrule
    cases hrule
  have hredeclares : grammar.Redeclares (grammar.ignorablesFor options) (· ≠ helper) other :=
    hfactors.redeclares hfresh
  obtain ⟨rule', hrule', -⟩ := hredeclares.defined hname hrule
  obtain ⟨i', -, hindex', -⟩ := other.compile_stands.defined hrule'
  have hreads' := hreads.redeclared hredeclares hname
  rw [← hfactors.ignorablesFor_eq] at hreads'
  obtain ⟨o', hone, hseen', hcuts'⟩ := other.run?_of_reads hindex' hreads'
  rw [hfactors.seenOf_eq, ← hseen] at hseen'
  exact ⟨i', o', hindex', hone, hseen', hcuts'⟩

/-! ## brackets with a helper -/

namespace Bracketed

/-- `nest ::= "a" nest "b" | "c"` -/
def grammar : Grammar Unit :=
  Grammar.empty.declare
    (({ name := "nest" } : Rule.Draft Unit).capture "a" () |>.call "nest" |>.hide "b" |>.tag ()
      |>.or |>.capture "c" ())

/-- `nest ::= opening "b" | "c"`, where `opening ::= "a" nest` comes back to `nest` -/
def factored : Grammar Unit :=
  (Grammar.empty.declare
    (({ name := "nest" } : Rule.Draft Unit).call "opening" |>.hide "b" |>.tag ()
      |>.or |>.capture "c" ())).declare
    (({ name := "opening" } : Rule.Draft Unit).capture "a" () |>.call "nest")

theorem factors : grammar.Factors "opening" factored := by
  refine .intro [.leaf "a" (.capture ()), .call "nest"] factored.rules.dropLast [] (by decide)
    (.here [] ⟨rfl, .here _ ?_⟩) rfl rfl
  exact .intro [] [.leaf "b" .hide] (some ())

/-- the text `aacbb` is parsed alike with both grammars -/
theorem factoring_unseen_of_nest :
    ∃ limit o limit' o', grammar.compile.run? limit 0 "aacbb" {} = some o ∧ o.result.isOk = true ∧
      o.consumed = 5 ∧ factored.compile.run? limit' 0 "aacbb" {} = some o' ∧ o'.result = o.result ∧
      o'.consumed = 5 ∧ o'.counters.recursionCuts = 0 := by
  have hindex : grammar.compile.ruleIndex? "nest" = some 0 := by decide +kernel
  have hindex' : factored.compile.ruleIndex? "nest" = some 0 := by decide +kernel
  have hrun : (grammar.compile.run? 100 0 "aacbb" {}).map
      (fun o => (o.result.isOk, o.consumed, o.counters.recursionCuts)) = some (true, 5, 0) := by
    decide +kernel
  obtain ⟨o, ho, hview⟩ := Option.map_eq_some_iff.mp hrun
  obtain ⟨hok, hpair⟩ := Prod.mk.inj hview
  obtain ⟨hconsumed, hcuts⟩ := Prod.mk.inj hpair
  obtain ⟨i', o', hi', hone, hseen, hcuts'⟩ :=
    factoring_unseen factors (by decide) hindex "aacbb" {} ho hcuts
  cases hindex'.symm.trans hi'
  obtain ⟨limit', ho'⟩ := (hone o').mpr rfl
  have hresult := congrArg Prod.fst hseen
  have hoffset := congrArg (·.2.1) hseen
  exact ⟨100, o, limit', o', ho, hok, hconsumed, ho', hresult, hoffset.trans hconsumed, hcuts'⟩

end Bracketed

end Packrat
