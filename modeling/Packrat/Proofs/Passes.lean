import Mathlib.Data.Finset.Card
import Packrat.Graph.Analysis

/-!
# Passes come to an end

A pass judges one number after the other, and each judgement counts at once for those after it.
What every single judgement keeps is kept by all passes, in whatever order the numbers depend on
each other; and a pass that changes anything leaves less unknown.

* `unknown`               the numbers that are not known to be true;
* `exhaust_keeps`         what every judgement keeps is kept by all passes;
* `pass_eq_self_iff`      a pass changes nothing just if no judgement does;
* `Loops`                 how often a loop of passes goes round, and what it ends with;
* `exhaust_loops`         at most once more than there are unknown numbers;
* `isKnown_nullableNodes`   so a parser is nullable if and only if its parts say so;
* `nullableNodes_within`  and what every inference respects holds of all nullable parsers.
-/

namespace Packrat

section
variable {step : Array Bool → Nat → Bool} {known known' result : Array Bool} {i j passes : Nat}

/-! ## what is known -/

theorem lt_of_isKnown (h : isKnown known i = true) : i < known.size := by
  by_cases hi : i < known.size
  · exact hi
  · rw [isKnown, Array.getD_eq_getD_getElem?, Array.getElem?_eq_none (by omega)] at h
    cases h

theorem eq_of_isKnown (hsize : known.size = known'.size)
    (h : ∀ i < known.size, isKnown known i = isKnown known' i) : known = known' := by
  apply Array.ext hsize
  intro i hi hi'
  have hsame := h i hi
  rwa [isKnown, isKnown, Array.getD_eq_getD_getElem?, Array.getD_eq_getD_getElem?,
    Array.getElem?_eq_getElem hi, Array.getElem?_eq_getElem hi'] at hsame

/-- there are as many numbers, and what is known of the one is known of the other -/
structure Grows (known known' : Array Bool) : Prop where
  size : known'.size = known.size
  isKnown : ∀ i, isKnown known i = true → isKnown known' i = true

theorem Grows.refl (known : Array Bool) : Grows known known := ⟨rfl, fun _ h => h⟩

theorem Grows.trans (h : Grows known known') (h' : Grows known' result) : Grows known result :=
  ⟨h'.size.trans h.size, fun i hi => h'.isKnown i (h.isKnown i hi)⟩

theorem Grows.antisymm (h : Grows known known') (h' : Grows known' known) : known = known' :=
  eq_of_isKnown h'.size fun i _ => Bool.eq_iff_iff.mpr ⟨h.isKnown i, h'.isKnown i⟩

/-- the numbers that are not known to be true -/
def unknown (known : Array Bool) : Finset Nat :=
  (Finset.range known.size).filter fun i => isKnown known i = false

theorem mem_unknown : i ∈ unknown known ↔ i < known.size ∧ isKnown known i = false := by
  rw [unknown, Finset.mem_filter, Finset.mem_range]

theorem card_unknown_le (known : Array Bool) : (unknown known).card ≤ known.size := by
  have hsub := Finset.card_filter_le (Finset.range known.size) fun i => isKnown known i = false
  rwa [Finset.card_range] at hsub

/-- where more is known, less is unknown -/
theorem Grows.card_unknown_lt (h : Grows known known') (hne : known' ≠ known) :
    (unknown known').card < (unknown known).card := by
  apply Finset.card_lt_card
  have hsub : unknown known' ⊆ unknown known := by
    intro i hi
    obtain ⟨hlt, hunknown⟩ := mem_unknown.mp hi
    refine mem_unknown.mpr ⟨h.size ▸ hlt, Bool.eq_false_iff.mpr fun hknown => ?_⟩
    rw [h.isKnown i hknown] at hunknown
    cases hunknown
  refine Finset.ssubset_iff_subset_ne.mpr ⟨hsub, fun hsame => hne (h.antisymm ⟨h.size.symm, ?_⟩).symm⟩
  intro i hi
  -- otherwise the number would be unknown in the one and known in the other
  by_contra hnot
  have hmem : i ∈ unknown known :=
    mem_unknown.mpr ⟨h.size ▸ lt_of_isKnown hi, Bool.eq_false_iff.mpr hnot⟩
  rw [← hsame, mem_unknown, hi] at hmem
  cases hmem.2

/-! ## one judgement -/

@[simp] theorem size_judge (step : Array Bool → Nat → Bool) (known : Array Bool) (i : Nat) :
    (judge step known i).size = known.size := by
  rw [judge]
  split
  · rfl
  · exact Array.size_setIfInBounds

theorem isKnown_judge_of_ne (h : j ≠ i) : isKnown (judge step known i) j = isKnown known j := by
  rw [judge]
  split
  · rfl
  · rw [isKnown, isKnown, Array.getD_eq_getD_getElem?, Array.getElem?_setIfInBounds_ne h.symm,
      Array.getD_eq_getD_getElem?]

theorem isKnown_judge_self (h : i < known.size) :
    isKnown (judge step known i) i = (isKnown known i || step known i) := by
  rw [judge]
  cases hknown : isKnown known i with
  | true => rw [if_pos rfl, hknown, Bool.true_or]
  | false =>
    rw [if_neg Bool.false_ne_true, isKnown, Array.getD_eq_getD_getElem?,
      Array.getElem?_setIfInBounds_self_of_lt h, Option.getD_some, Bool.false_or]

/-- what is known after a judgement was known before, or has just been inferred -/
theorem of_isKnown_judge (h : isKnown (judge step known i) j = true) :
    isKnown known j = true ∨ j = i ∧ step known i = true := by
  by_cases hj : j = i
  · subst hj
    have hlt := lt_of_isKnown h
    rw [size_judge] at hlt
    rw [isKnown_judge_self hlt, Bool.or_eq_true_iff] at h
    exact h.imp_right fun hstep => ⟨rfl, hstep⟩
  · rw [isKnown_judge_of_ne hj] at h
    exact .inl h

theorem grows_judge (step : Array Bool → Nat → Bool) (known : Array Bool) (i : Nat) :
    Grows known (judge step known i) := by
  refine ⟨size_judge step known i, fun j hj => ?_⟩
  by_cases hji : j = i
  · subst hji
    rw [isKnown_judge_self (lt_of_isKnown hj), hj, Bool.true_or]
  · rwa [isKnown_judge_of_ne hji]

/-! ## passes -/

/-- **What every judgement keeps is kept by all passes.** -/
theorem exhaust_keeps {M : Array Bool → Prop}
    (hjudge : ∀ {known : Array Bool} (i : Nat), M known → M (judge step known i)) (passes : Nat)
    (h : M known) : M (exhaust step passes known) := by
  have hpass : ∀ {known : Array Bool} (is : List Nat), M known → M (is.foldl (judge step) known) := by
    intro known is hknown
    induction is generalizing known with
    | nil => exact hknown
    | cons i is ih => exact ih (hjudge i hknown)
  induction passes generalizing known with
  | zero => exact h
  | succ passes ih =>
    rw [exhaust]
    split
    · exact h
    · exact ih (hpass _ h)

theorem grows_foldl_judge (step : Array Bool → Nat → Bool) (known : Array Bool) (is : List Nat) :
    Grows known (is.foldl (judge step) known) := by
  induction is generalizing known with
  | nil => exact .refl known
  | cons i is ih => exact (grows_judge step known i).trans (ih _)

/-- judgements that leave nothing changed in the end have changed nothing on the way -/
theorem foldl_judge_eq_self_iff {is : List Nat} :
    is.foldl (judge step) known = known ↔ ∀ i ∈ is, judge step known i = known := by
  induction is with
  | nil => exact ⟨fun _ => nofun, fun _ => rfl⟩
  | cons i is ih =>
    rw [List.foldl_cons, List.forall_mem_cons]
    constructor
    · intro h
      have hafter := grows_foldl_judge step (judge step known i) is
      rw [h] at hafter
      have hfirst : judge step known i = known := hafter.antisymm (grows_judge step known i)
      rw [hfirst] at h
      exact ⟨hfirst, ih.mp h⟩
    · rintro ⟨hfirst, hrest⟩
      rw [hfirst]
      exact ih.mpr hrest

/-- **A pass changes nothing just if all that can be inferred is known.** -/
theorem pass_eq_self_iff :
    pass step known = known ↔ ∀ i < known.size, step known i = true → isKnown known i = true := by
  rw [pass, foldl_judge_eq_self_iff]
  constructor
  · intro h i hi hstep
    rw [← h i (List.mem_range.mpr hi), isKnown_judge_self hi, hstep, Bool.or_true]
  · intro h i hi
    have hlt := List.mem_range.mp hi
    refine Grows.antisymm ⟨(size_judge step known i).symm, fun j hj => ?_⟩ (grows_judge step known i)
    rcases of_isKnown_judge hj with hknown | ⟨rfl, hstep⟩
    · exact hknown
    · exact h j hlt hstep

/-! ## the loop -/

/-- from `known`, a loop of passes ends with `result` after so many of them: the last one changes
nothing, and each one before it does -/
inductive Loops (step : Array Bool → Nat → Bool) : Array Bool → Nat → Array Bool → Prop
  | last {known : Array Bool} : pass step known = known → Loops step known 1 known
  | more {known result : Array Bool} {passes : Nat} : pass step known ≠ known →
      Loops step (pass step known) passes result → Loops step known (passes + 1) result

theorem Loops.still (h : Loops step known passes result) : pass step result = result := by
  induction h with
  | last h => exact h
  | more _ _ ih => exact ih

/-- **A loop of passes ends**, at the latest with one pass for each unknown number and another. -/
theorem exhaust_loops (step : Array Bool → Nat → Bool) (h : (unknown known).card < passes) :
    ∃ made ≤ (unknown known).card + 1, Loops step known made (exhaust step passes known) := by
  induction passes generalizing known with
  | zero => omega
  | succ passes ih =>
    rw [exhaust]
    split
    · next hsame => exact ⟨1, by omega, .last hsame⟩
    · next hmore =>
      have hless : (unknown (pass step known)).card < (unknown known).card :=
        (grows_foldl_judge step known _).card_unknown_lt hmore
      obtain ⟨made, hmade, hloops⟩ := ih (hless.trans_le (Nat.le_of_lt_succ h))
      exact ⟨made + 1, by omega, .more hmore hloops⟩

end

/-! ## nullable parsers -/

section
variable {τ : Type} (nodes : Array (Node τ)) (roots : Array Nat)

theorem Node.isNullable_mono {known known' : Array Bool}
    (h : ∀ i, isKnown known i = true → isKnown known' i = true) {node : Node τ}
    (hnode : node.isNullable roots known = true) : node.isNullable roots known' = true := by
  cases node with
  | sequence parts shape =>
    rw [isNullable, List.all_eq_true] at hnode ⊢
    exact fun part hpart => h part (hnode part hpart)
  | alternative choices shape =>
    rw [isNullable, List.any_eq_true] at hnode ⊢
    obtain ⟨choice, hchoice, hknown⟩ := hnode
    exact ⟨choice, hchoice, h choice hknown⟩
  | repetition inner bound shape =>
    cases bound with
    | zeroOrMore => rfl
    | oneOrMore => exact h inner hnode
  | optional inner => rfl
  | leaf source pattern role => cases pattern <;> exact hnode
  | reference name rule =>
    cases rule with
    | none => exact hnode
    | some rule =>
      rw [isNullable] at hnode ⊢
      cases hroot : roots[rule]? with
      | none =>
        rw [hroot] at hnode
        cases hnode
      | some root =>
        rw [hroot] at hnode
        exact h root hnode

/-- more known parsers never make an inference fail -/
theorem nullableStep_mono {known known' : Array Bool}
    (h : ∀ i, isKnown known i = true → isKnown known' i = true) {i : Nat}
    (hi : nullableStep nodes roots known i = true) : nullableStep nodes roots known' i = true := by
  rw [nullableStep] at hi ⊢
  cases hnode : nodes[i]? with
  | none =>
    rw [hnode] at hi
    cases hi
  | some node =>
    rw [hnode] at hi
    exact Node.isNullable_mono roots h hi

theorem lt_of_nullableStep {known : Array Bool} {i : Nat}
    (h : nullableStep nodes roots known i = true) : i < nodes.size := by
  rw [nullableStep] at h
  cases hnode : nodes[i]? with
  | none =>
    rw [hnode] at h
    cases h
  | some node => exact (Array.getElem?_eq_some_iff.mp hnode).1

/-- nothing is known in the beginning -/
theorem isKnown_replicate_false (n i : Nat) : isKnown (Array.replicate n false) i = false := by
  rw [isKnown, Array.getD_eq_getD_getElem?, Array.getElem?_replicate]
  split <;> rfl

@[simp] theorem size_nullableNodes : (nullableNodes nodes roots).size = nodes.size :=
  exhaust_keeps (M := fun known => known.size = nodes.size)
    (fun i h => (size_judge _ _ i).trans h) _ Array.size_replicate

/-- **The loop that finds the nullable parsers** goes round at most once more than there are
parsers. -/
theorem nullableNodes_loops : ∃ made ≤ nodes.size + 1,
    Loops (nullableStep nodes roots) (Array.replicate nodes.size false) made
      (nullableNodes nodes roots) := by
  have hcard := card_unknown_le (Array.replicate nodes.size false)
  rw [Array.size_replicate] at hcard
  obtain ⟨made, hmade, hloops⟩ := exhaust_loops (nullableStep nodes roots) (Nat.lt_succ_of_le hcard)
  exact ⟨made, hmade.trans (Nat.succ_le_succ hcard), hloops⟩

/-- **What every inference respects holds of all nullable parsers.** -/
theorem nullableNodes_within {P : Nat → Prop}
    (hstep : ∀ known : Array Bool, (∀ i, isKnown known i = true → P i) →
      ∀ i, nullableStep nodes roots known i = true → P i) :
    ∀ i, isKnown (nullableNodes nodes roots) i = true → P i := by
  apply exhaust_keeps (M := fun known => ∀ i, isKnown known i = true → P i)
  · intro known i hknown j hj
    rcases of_isKnown_judge hj with hj | ⟨rfl, hinferred⟩
    · exact hknown j hj
    · exact hstep known hknown j hinferred
  · intro i hi
    rw [isKnown_replicate_false] at hi
    cases hi

/-- **A parser is nullable if and only if its parts say so.** -/
theorem isKnown_nullableNodes (i : Nat) :
    isKnown (nullableNodes nodes roots) i =
      nullableStep nodes roots (nullableNodes nodes roots) i := by
  apply Bool.eq_iff_iff.mpr
  constructor
  · -- what is known at any time could be inferred from it
    revert i
    apply exhaust_keeps (M := fun known => ∀ i, isKnown known i = true →
      nullableStep nodes roots known i = true)
    · intro known i hknown j hj
      refine nullableStep_mono nodes roots (grows_judge _ known i).isKnown ?_
      rcases of_isKnown_judge hj with hj | ⟨rfl, hinferred⟩
      · exact hknown j hj
      · exact hinferred
    · intro i hi
      rw [isKnown_replicate_false] at hi
      cases hi
  · intro hstep
    obtain ⟨made, -, hloops⟩ := nullableNodes_loops nodes roots
    have hlt := lt_of_nullableStep nodes roots hstep
    rw [← size_nullableNodes nodes roots] at hlt
    exact pass_eq_self_iff.mp hloops.still i hlt hstep

end

end Packrat
