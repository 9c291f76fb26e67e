import Packrat.Grammar.Basic
import Packrat.Reader

/-!
# What a grammar says

A grammar is read as it was declared, by the names of its rules and without any graph.

* `Grammar.rule?`      the definition of a name: the first rule declared under it;
* `Reads`              a name reads from one reader to another, with that result;
* `ReadsClauses`       so does the first of several clauses that does not fail;
* `ReadsClause`        so do the steps of a clause, which give its result a shape;
* `ReadsSteps`, `ReadsStep`   so do steps one after the other, and a single one;
* `ReadsNames`, `ReadsRounds`   the first of several names, and a name again and again.

A name without a definition and a text that spells no pattern never match.
-/

namespace Packrat

/-- the definition of a name: of several rules that have it, the first -/
def Grammar.rule? {τ : Type} (grammar : Grammar τ) (name : String) : Option (Rule τ) :=
  grammar.rules.find? fun rule => rule.name == name

/-- the shape of a clause: the one chosen, or else `first` for exactly one step and a group for any
other number -/
def Clause.assembly {τ : Type} (c : Clause τ) : Shape τ :=
  c.shape.getD (if c.steps.length = 1 then .first else .splice none)

section
variable {τ : Type} (grammar : Grammar τ) (ignorables : List Pattern)

mutual

/-- the name reads from the first reader to the second, with that result -/
inductive Reads : String → Reader → Option (Fragment τ) → Reader → Prop
  | undefined {name : String} {r : Reader} : grammar.rule? name = none → Reads name r none r
  | rule {name : String} {rule : Rule τ} {r r' : Reader} {result : Option (Fragment τ)} :
      grammar.rule? name = some rule → ReadsClauses rule.clauses r result r' →
      Reads name r result r'

/-- the first of the clauses that does not fail reads, each of them at the same place -/
inductive ReadsClauses : List (Clause τ) → Reader → Option (Fragment τ) → Reader → Prop
  | nil {r : Reader} : ReadsClauses [] r none r
  | hit {c : Clause τ} {cs : List (Clause τ)} {r r' : Reader} {found : Fragment τ} :
      ReadsClause c r (some found) r' → ReadsClauses (c :: cs) r (some found) r'
  | next {c : Clause τ} {cs : List (Clause τ)} {r r₁ r' : Reader} {result : Option (Fragment τ)} :
      ReadsClause c r none r₁ → ReadsClauses cs { r₁ with place := r.place } result r' →
      ReadsClauses (c :: cs) r result r'

/-- the steps of the clause read, and what they find takes its shape -/
inductive ReadsClause : Clause τ → Reader → Option (Fragment τ) → Reader → Prop
  | whole {c : Clause τ} {r r' : Reader} {trees : List (Tree τ)} :
      ReadsSteps c.steps r (some trees) r' → ReadsClause c r (some (c.assembly.apply trees)) r'
  /-- a clause that fails goes back to where it began -/
  | broken {c : Clause τ} {r r' : Reader} : ReadsSteps c.steps r none r' →
      ReadsClause c r none { r' with place := r.place }

/-- the steps read one after the other; there are no trees if one of them fails -/
inductive ReadsSteps : List (Step τ) → Reader → Option (List (Tree τ)) → Reader → Prop
  | nil {r : Reader} : ReadsSteps [] r (some []) r
  | fail {s : Step τ} {ss : List (Step τ)} {r r' : Reader} : ReadsStep s r none r' →
      ReadsSteps (s :: ss) r none r'
  | next {s : Step τ} {ss : List (Step τ)} {r r₁ r' : Reader} (found : Fragment τ)
      (trees : Option (List (Tree τ))) : ReadsStep s r (some found) r₁ → ReadsSteps ss r₁ trees r' →
      ReadsSteps (s :: ss) r (trees.map (found.collected ++ ·)) r'

/-- the step reads from the first reader to the second, with that result -/
inductive ReadsStep : Step τ → Reader → Option (Fragment τ) → Reader → Prop
  | leaf {source : String} {pattern : Pattern} {role : Role τ} {r r' : Reader} {found : Match} :
      Pattern.anchored source = .ok pattern → r.look? ignorables pattern = some (found, r') →
      ReadsStep (.leaf source role) r (some (role.apply found)) r'
  | miss {source : String} {pattern : Pattern} {role : Role τ} {r : Reader} :
      Pattern.anchored source = .ok pattern → r.look? ignorables pattern = none →
      ReadsStep (.leaf source role) r none r
  | invalid {source : String} {role : Role τ} {r : Reader} {e : PatternError} :
      Pattern.anchored source = .error e → ReadsStep (.leaf source role) r none r
  | call {name : String} {r r' : Reader} {result : Option (Fragment τ)} :
      Reads name r result r' → ReadsStep (.call name) r result r'
  | repetition {name : String} {bound : Bound} {shape : Shape τ} {count : Nat} {r r' : Reader}
      {trees : List (Tree τ)} : ReadsRounds name r trees count r' → bound.least ≤ count →
      ReadsStep (.repetition name bound shape) r (some (shape.apply trees)) r'
  /-- a repetition with too few rounds goes back to where it began -/
  | tooFew {name : String} {bound : Bound} {shape : Shape τ} {count : Nat} {r r' : Reader}
      {trees : List (Tree τ)} : ReadsRounds name r trees count r' → count < bound.least →
      ReadsStep (.repetition name bound shape) r none { r' with place := r.place }
  | maybe {name : String} {r r' : Reader} (result : Option (Fragment τ)) :
      Reads name r result r' → ReadsStep (.maybe name) r (some (result.getD .nothing)) r'
  | anyOf {names : List String} {r r' : Reader} {result : Option (Fragment τ)} :
      ReadsNames names r result r' → ReadsStep (.anyOf names) r result r'

/-- the first of the names that does not fail reads, each of them at the same place -/
inductive ReadsNames : List String → Reader → Option (Fragment τ) → Reader → Prop
  | nil {r : Reader} : ReadsNames [] r none r
  | hit {name : String} {names : List String} {r r' : Reader} {found : Fragment τ} :
      Reads name r (some found) r' → ReadsNames (name :: names) r (some found) r'
  | next {name : String} {names : List String} {r r₁ r' : Reader}
      {result : Option (Fragment τ)} : Reads name r none r₁ →
      ReadsNames names { r₁ with place := r.place } result r' → ReadsNames (name :: names) r result r'

/-- the name reads until it fails or does not move on; what it finds then still counts -/
inductive ReadsRounds : String → Reader → List (Tree τ) → Nat → Reader → Prop
  | stop {name : String} {r r' : Reader} : Reads name r none r' → ReadsRounds name r [] 0 r'
  | stall {name : String} {r r' : Reader} (found : Fragment τ) : Reads name r (some found) r' →
      r'.offset ≤ r.offset → ReadsRounds name r found.collected 1 r'
  | round {name : String} {count : Nat} {r r₁ r' : Reader} (found : Fragment τ)
      {trees : List (Tree τ)} : Reads name r (some found) r₁ → r.offset < r₁.offset →
      ReadsRounds name r₁ trees count r' →
      ReadsRounds name r (found.collected ++ trees) (count + 1) r'

end

end

end Packrat
