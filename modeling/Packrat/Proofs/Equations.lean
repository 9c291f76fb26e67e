import Packrat.Proofs.Nullability
import Packrat.Proofs.References

/-!
# The equations of nullability

Whether a parser is nullable is a question about its parts.  References lead back to parsers that are
still in question, so the equations may have several solutions: where a rule is nothing but itself,
it can be called nullable or not.  The loop that judges one parser after the other, each by what it
has found by then, comes to the least of them.

* `Graph.Enables`       what makes a parser nullable, given the answers for all parsers;
* `Graph.Solves`        answers that solve the equations of all parsers;
* `Grammar.enables_iff`   the inference about a parser is its equation;
* `nullability_least`   the nullable parsers are the least solution, found in at most one pass for
                        each parser and another.
-/

namespace Packrat

section
variable {τ : Type}

namespace Graph

/-- what makes a parser nullable, if `answers` tell which parsers are -/
def Enables (g : Graph τ) (answers : Array Bool) : Node τ → Prop
  | .leaf source _ _ => ∃ pattern, Pattern.anchored source = .ok pattern ∧
      ∃ found q, pattern.matchAt? (Place.first []) = some (found, q)
  | .sequence parts _ => ∀ part ∈ parts, isKnown answers part = true
  | .alternative choices _ => ∃ choice ∈ choices, isKnown answers choice = true
  | .repetition _ .zeroOrMore _ => True
  | .repetition inner .oneOrMore _ => isKnown answers inner = true
  | .optional _ => True
  | .reference _ none => False
  | .reference _ (some rule) => ∃ root, g.root? rule = some root ∧ isKnown answers root = true

/-- one answer for each parser, each of them as the equation of the parser has it -/
structure Solves (g : Graph τ) (answers : Array Bool) : Prop where
  size : answers.size = g.nodes.size
  iff : ∀ {i node}, g.nodes[i]? = some node → (isKnown answers i = true ↔ g.Enables answers node)

end Graph

theorem Pattern.isNullable_iff {pattern : Pattern} : pattern.isNullable = true ↔
    ∃ found q, pattern.matchAt? (Place.first []) = some (found, q) := by
  rw [isNullable]
  cases hend : pattern.expr.firstEnd? (Place.first []) with
  | none =>
    rw [matchAt?_eq_none hend]
    simp
  | some s =>
    rw [matchAt?_eq_some hend]
    simp

namespace Grammar
variable {grammar : Grammar τ} {i : Nat} {node : Node τ} {answers : Array Bool}

/-- **The inference about a parser is its equation.** -/
theorem enables_iff (h : grammar.compile.nodes[i]? = some node) (answers : Array Bool) :
    grammar.compile.Enables answers node ↔
      node.isNullable grammar.compile.roots answers = true := by
  cases node with
  | leaf source pattern role =>
    obtain ⟨rfl, -⟩ := leaf_of_getElem? h
    rw [Graph.Enables]
    cases Pattern.anchored source with
    | error e => simp [Node.isNullable, Except.toOption]
    | ok pattern =>
      show _ ↔ pattern.isNullable = true
      rw [Pattern.isNullable_iff]
      constructor
      · rintro ⟨pattern', hpattern, hmatch⟩
        cases hpattern
        exact hmatch
      · intro hmatch
        exact ⟨pattern, rfl, hmatch⟩
  | sequence parts shape => exact List.all_eq_true.symm
  | alternative choices shape => exact List.any_eq_true.symm
  | repetition inner bound shape =>
    cases bound with
    | zeroOrMore => exact ⟨fun _ => rfl, fun _ => trivial⟩
    | oneOrMore => exact Iff.rfl
  | optional inner => exact ⟨fun _ => rfl, fun _ => trivial⟩
  | reference name target =>
    cases target with
    | none => simp [Graph.Enables, Node.isNullable]
    | some rule =>
      rw [Graph.Enables, Node.isNullable, Graph.getElem?_roots]
      cases grammar.compile.root? rule with
      | none => simp
      | some root => simp

/-- what can be inferred is so in every solution -/
theorem isKnown_of_solves (h : grammar.compile.Solves answers)
    (hi : nullableStep grammar.compile.nodes grammar.compile.roots answers i = true) :
    isKnown answers i = true := by
  rw [nullableStep] at hi
  cases hnode : grammar.compile.nodes[i]? with
  | none =>
    rw [hnode] at hi
    cases hi
  | some node =>
    rw [hnode] at hi
    exact (h.iff hnode).mpr ((enables_iff hnode answers).mpr hi)

end Grammar

/-- **The nullable parsers are the least solution of their equations.**  The answers that the loop
ends with are one for each parser and solve all equations, whatever the rules refer to, and every
solution has all that they call nullable.  The loop makes at most as many passes as there are parsers
and another one, which is the first to change nothing. -/
theorem nullability_least (grammar : Grammar τ) :
    grammar.compile.Solves (nullableNodes grammar.compile.nodes grammar.compile.roots) ∧
    (∀ answers, grammar.compile.Solves answers →
      Grows (nullableNodes grammar.compile.nodes grammar.compile.roots) answers) ∧
    ∃ made ≤ grammar.compile.nodes.size + 1,
      Loops (nullableStep grammar.compile.nodes grammar.compile.roots)
        (Array.replicate grammar.compile.nodes.size false) made
        (nullableNodes grammar.compile.nodes grammar.compile.roots) := by
  refine ⟨⟨size_nullableNodes _ _, fun {i node} hnode => ?_⟩, fun answers hanswers => ?_,
    nullableNodes_loops _ _⟩
  · rw [isKnown_nullableNodes, nullableStep, hnode, Grammar.enables_iff hnode]
  · refine ⟨hanswers.size.trans (size_nullableNodes _ _).symm, ?_⟩
    apply nullableNodes_within
    -- what is known when a parser is judged is so in the solution, and so is what follows from it
    intro known hknown i hi
    exact Grammar.isKnown_of_solves hanswers (nullableStep_mono _ _ hknown hi)

end

end Packrat
