import Packrat.Proofs.Passes
import Packrat.Proofs.Renumbering
import Packrat.Proofs.Searches

/-!
# What is known beforehand does not depend on numbers

* `Graph.Twins.nullable`   whatever the order in which they are judged, the same parsers are nullable;
* `Graph.Twins.exists_part`   what a parser consists of has a counterpart among the parts of its own;
* `Graph.Twins.exists_called`   chains of calls have counterparts too;
* `Graph.Twins.facts`   so rules with related numbers have the same facts;
* `Graph.Twins.repeatsNullable`   and they agree on whether they repeat a nullable parser.

Searches in the two graphs may come upon things in different orders, but what a search finds can be said
without its order (`mem_nodesUnder`, `isRecursive_iff`).
-/

namespace Packrat

/-! ## lists of related numbers -/

section
variable {α β : Type} {P : α → β → Prop} {xs : List α} {ys : List β}

theorem exists_of_forall₂ (h : List.Forall₂ P xs ys) {y : β} (hy : y ∈ ys) : ∃ x ∈ xs, P x y := by
  induction h with
  | nil => cases hy
  | cons hxy _ ih =>
    rcases List.mem_cons.mp hy with rfl | hy
    · exact ⟨_, List.mem_cons_self, hxy⟩
    · obtain ⟨x, hx, hxy⟩ := ih hy
      exact ⟨x, List.mem_cons_of_mem _ hx, hxy⟩

theorem all_of_forall₂ {f : α → Bool} {g : β → Bool} (h : List.Forall₂ P xs ys)
    (hf : ∀ {x y}, P x y → f x = true → g y = true) (hall : xs.all f = true) : ys.all g = true := by
  induction h with
  | nil => rfl
  | cons hxy _ ih =>
    rw [List.all_cons, Bool.and_eq_true] at hall ⊢
    exact ⟨hf hxy hall.1, ih hall.2⟩

theorem any_of_forall₂ {f : α → Bool} {g : β → Bool} (h : List.Forall₂ P xs ys)
    (hf : ∀ {x y}, P x y → f x = true → g y = true) (hany : xs.any f = true) : ys.any g = true := by
  induction h with
  | nil => exact hany
  | cons hxy _ ih =>
    rw [List.any_cons, Bool.or_eq_true] at hany ⊢
    exact hany.imp (hf hxy) ih

end

/-! ## parsers -/

section
variable {τ : Type} {N R : Nat → Nat → Prop} {g h : Graph τ} {i j r s : Nat}

/-- the roots of the rules, in order -/
def Graph.roots (g : Graph τ) : Array Nat := g.rules.map RuleEntry.root

theorem Graph.getElem?_roots (g : Graph τ) (r : Nat) : g.roots[r]? = g.root? r := by
  rw [roots, Array.getElem?_map, root?]

/-- the rules that each rule names -/
def Graph.calls (g : Graph τ) : Array (List Nat) := g.roots.map (calledRules g.nodes)

theorem Graph.getD_calls (g : Graph τ) (h : g.root? r = some i) :
    g.calls.getD r [] = calledRules g.nodes i := by
  rw [← getElem?_roots] at h
  rw [Array.getD_eq_getD_getElem?, calls, Array.getElem?_map, h]
  rfl

theorem Graph.getD_calls_none (g : Graph τ) (h : g.root? r = none) : g.calls.getD r [] = [] := by
  rw [← getElem?_roots] at h
  rw [Array.getD_eq_getD_getElem?, calls, Array.getElem?_map, h]
  rfl

theorem Node.Like.operands {a b : Node τ} (hab : a.Like N R b) :
    List.Forall₂ N a.operands b.operands := by
  cases hab with
  | sequence shape hparts => exact hparts
  | alternative shape hchoices => exact hchoices
  | repetition bound shape hinner => exact .cons hinner .nil
  | optional hinner => exact .cons hinner .nil
  | leaf source pattern role => exact .nil
  | reference name hrule => exact .nil
  | undefined name => exact .nil

theorem Node.Like.symm {a b : Node τ} (hab : a.Like N R b) : b.Like (flip N) (flip R) a := by
  cases hab with
  | sequence shape hparts => exact .sequence shape (List.Forall₂.flip hparts)
  | alternative shape hchoices => exact .alternative shape (List.Forall₂.flip hchoices)
  | repetition bound shape hinner => exact .repetition bound shape hinner
  | optional hinner => exact .optional hinner
  | leaf source pattern role => exact .leaf source pattern role
  | reference name hrule => exact .reference name hrule
  | undefined name => exact .undefined name

namespace Graph.Twins

theorem symm (hg : g.Twins N R h) : h.Twins (flip N) (flip R) g where
  node hij := by
    obtain ⟨a, b, ha, hb, hab⟩ := hg.node hij
    exact ⟨b, a, hb, ha, hab.symm⟩
  root hrs := by
    obtain ⟨i, j, hi, hj, hij⟩ := hg.root hrs
    exact ⟨j, i, hj, hi, hij⟩
  unique hrs hrs' := (hg.unique hrs hrs').symm

theorem isNullable (hg : g.Twins N R h) {known known' : Array Bool}
    (hknown : ∀ {i j}, N i j → isKnown known i = true → isKnown known' j = true) {a b : Node τ}
    (hab : a.Like N R b) (ha : a.isNullable g.roots known = true) :
    b.isNullable h.roots known' = true := by
  cases hab with
  | sequence shape hparts => exact all_of_forall₂ hparts hknown ha
  | alternative shape hchoices => exact any_of_forall₂ hchoices hknown ha
  | repetition bound shape hinner =>
    cases bound with
    | zeroOrMore => rfl
    | oneOrMore => exact hknown hinner ha
  | optional hinner => rfl
  | leaf source pattern role => cases pattern <;> exact ha
  | reference name hrule =>
    obtain ⟨i, j, hi, hj, hij⟩ := hg.root hrule
    rw [Node.isNullable, getElem?_roots, hi] at ha
    rw [Node.isNullable, getElem?_roots, hj]
    exact hknown hij ha
  | undefined name => exact ha

/-- what is nullable has nullable counterparts -/
theorem nullable_of_nullable (hg : g.Twins N R h) (hij : N i j)
    (hi : isKnown (nullableNodes g.nodes g.roots) i = true) :
    isKnown (nullableNodes h.nodes h.roots) j = true := by
  refine nullableNodes_within g.nodes g.roots
    (P := fun i => ∀ j, N i j → isKnown (nullableNodes h.nodes h.roots) j = true) ?_ i hi j hij
  intro known hknown i hi j hij
  obtain ⟨a, b, ha, hb, hab⟩ := hg.node hij
  rw [nullableStep, ha] at hi
  rw [isKnown_nullableNodes, nullableStep, hb]
  exact hg.isNullable (fun hij hi => hknown _ hi _ hij) hab hi

/-- **The same parsers are nullable.** -/
theorem nullable (hg : g.Twins N R h) (hij : N i j) :
    isKnown (nullableNodes g.nodes g.roots) i = isKnown (nullableNodes h.nodes h.roots) j :=
  Bool.eq_iff_iff.mpr ⟨hg.nullable_of_nullable hij, hg.symm.nullable_of_nullable hij⟩

/-! ### parts -/

theorem exists_under (hg : g.Twins N R h) (hij : N i j) {i' : Nat}
    (hway : Relation.ReflTransGen (Operand g.nodes) i i') :
    ∃ j', N i' j' ∧ Relation.ReflTransGen (Operand h.nodes) j j' := by
  induction hway with
  | refl => exact ⟨j, hij, .refl⟩
  | tail _ hstep ih =>
    obtain ⟨j', hij', hway'⟩ := ih
    obtain ⟨a, b, ha, hb, hab⟩ := hg.symm.node hij'
    obtain ⟨b', hb', hpart⟩ := hstep
    cases hb.symm.trans hb'
    obtain ⟨j'', hj'', hij''⟩ := exists_of_forall₂ hab.operands hpart
    exact ⟨j'', hij'', hway'.tail ⟨a, ha, hj''⟩⟩

/-- **What a parser consists of has a counterpart.** -/
theorem exists_part (hg : g.Twins N R h) (hij : N i j) {a : Node τ}
    (ha : a ∈ Packrat.parts g.nodes i) : ∃ b ∈ Packrat.parts h.nodes j, a.Like N R b := by
  obtain ⟨i', hi', ha⟩ := List.mem_filterMap.mp ha
  obtain ⟨j', hij', hway⟩ := hg.exists_under hij (mem_nodesUnder.mp hi')
  obtain ⟨a', b, ha', hb, hab⟩ := hg.node hij'
  cases ha.symm.trans ha'
  exact ⟨b, List.mem_filterMap.mpr ⟨j', mem_nodesUnder.mpr hway, hb⟩, hab⟩

/-- so what holds of some part holds of some part of the other -/
theorem any_parts (hg : g.Twins N R h) (hij : N i j) {p q : Node τ → Bool}
    (hpq : ∀ {a b}, a.Like N R b → p a = q b) :
    (Packrat.parts g.nodes i).any p = (Packrat.parts h.nodes j).any q := by
  rw [Bool.eq_iff_iff, List.any_eq_true, List.any_eq_true]
  constructor
  · rintro ⟨a, ha, hp⟩
    obtain ⟨b, hb, hab⟩ := hg.exists_part hij ha
    exact ⟨b, hb, hpq hab ▸ hp⟩
  · rintro ⟨b, hb, hq⟩
    obtain ⟨a, ha, hba⟩ := hg.symm.exists_part hij hb
    exact ⟨a, ha, (hpq hba.symm).trans hq⟩

theorem hasUnresolved (hg : g.Twins N R h) (hij : N i j) :
    hasUnresolved g.nodes i = hasUnresolved h.nodes j := by
  refine hg.any_parts hij fun hab => ?_
  cases hab <;> rfl

theorem repeatsNullable (hg : g.Twins N R h) (hij : N i j) :
    repeatsNullable g.nodes (nullableNodes g.nodes g.roots) i =
      repeatsNullable h.nodes (nullableNodes h.nodes h.roots) j := by
  refine hg.any_parts hij fun hab => ?_
  cases hab with
  | repetition bound shape hinner => exact hg.nullable hinner
  | _ => rfl

/-! ### rules -/

theorem exists_called (hg : g.Twins N R h) (hrs : R r s) {r' : Nat} (hcalls : Onward g.calls r r') :
    ∃ s', R r' s' ∧ Onward h.calls s s' := by
  obtain ⟨i, j, hi, hj, hij⟩ := hg.root hrs
  rw [Onward, g.getD_calls hi] at hcalls
  obtain ⟨a, ha, htarget⟩ := List.mem_filterMap.mp hcalls
  obtain ⟨b, hb, hab⟩ := hg.exists_part hij ha
  cases hab with
  | reference name hrule =>
    cases htarget
    refine ⟨_, hrule, ?_⟩
    rw [Onward, h.getD_calls hj]
    exact List.mem_filterMap.mpr ⟨_, hb, rfl⟩
  | _ => cases htarget

theorem exists_chain (hg : g.Twins N R h) (hrs : R r s) {r' : Nat}
    (hchain : Relation.TransGen (Onward g.calls) r r') :
    ∃ s', R r' s' ∧ Relation.TransGen (Onward h.calls) s s' := by
  induction hchain with
  | single hcalls =>
    obtain ⟨s', hrs', hcalls'⟩ := hg.exists_called hrs hcalls
    exact ⟨s', hrs', .single hcalls'⟩
  | tail _ hcalls ih =>
    obtain ⟨s', hrs', hchain'⟩ := ih
    obtain ⟨s'', hrs'', hcalls'⟩ := hg.exists_called hrs' hcalls
    exact ⟨s'', hrs'', hchain'.tail hcalls'⟩

theorem recursive_of_recursive (hg : g.Twins N R h) (hrs : R r s)
    (hr : isRecursive g.calls r = true) : isRecursive h.calls s = true := by
  obtain ⟨s', hrs', hchain⟩ := hg.exists_chain hrs (isRecursive_iff.mp hr)
  have hsame : s = s' := (hg.unique hrs hrs').mp rfl
  subst hsame
  exact isRecursive_iff.mpr hchain

/-- **Rules with related numbers have the same facts.** -/
theorem facts (hg : g.Twins N R h) (hrs : R r s) (hij : N i j) :
    factsOf g.nodes (nullableNodes g.nodes g.roots) g.calls r i =
      factsOf h.nodes (nullableNodes h.nodes h.roots) h.calls s j := by
  have hrecursive : isRecursive g.calls r = isRecursive h.calls s :=
    Bool.eq_iff_iff.mpr ⟨hg.recursive_of_recursive hrs, hg.symm.recursive_of_recursive hrs⟩
  rw [factsOf, factsOf, hg.nullable hij, hrecursive, hg.hasUnresolved hij]

end Graph.Twins

end

end Packrat
