import Mathlib.Logic.Relation
import Packrat.Graph.Analysis

/-!
# Searches come to an end, and find all there is to find

* `Onward next`           a number leads to another at once;
* `Gathers`, `Seeks`     the two searches as loops without a bound, turn by turn;
* `gathers_gather`, `seeks_leadsTo`   each comes to an end, after no more turns than there are numbers
                         on the stack and numbers that unseen ones lead to;
* `Reached next stack`   what the stack leads to;
* `Frontier`             what is seen leads to nothing but what is seen or on the stack;
* `mem_gather`           so all that the stack leads to is gathered, and nothing else;
* `leadsTo_iff`          and the goal is found just if the stack leads to it, though what the goal leads
                         to is never looked at;
* `mem_nodesUnder`, `isRecursive_iff`   for parsers and their parts, and for rules that name rules.
-/

namespace Packrat

/-- the first number leads to the second at once -/
def Onward (next : Array (List Nat)) (i j : Nat) : Prop := j ∈ next.getD i []

/-! ## turn by turn -/

/-- the loop that gathers, from what is seen and the stack: how many turns it makes, and its outcome -/
inductive Gathers (next : Array (List Nat)) : List Nat → List Nat → Nat → List Nat → Prop
  | done (seen : List Nat) : Gathers next seen [] 0 seen.reverse
  | again {seen stack found : List Nat} {i turns : Nat} (h : i ∈ seen)
      (rest : Gathers next seen stack turns found) :
      Gathers next seen (i :: stack) (turns + 1) found
  | new {seen stack found : List Nat} {i turns : Nat} (h : i ∉ seen)
      (rest : Gathers next (i :: seen) (next.getD i [] ++ stack) turns found) :
      Gathers next seen (i :: stack) (turns + 1) found

/-- the loop that seeks a goal, in the same way: it breaks off once the goal is on top of the stack -/
inductive Seeks (next : Array (List Nat)) (goal : Nat) : List Nat → List Nat → Nat → Bool → Prop
  | done (seen : List Nat) : Seeks next goal seen [] 0 false
  | here (seen stack : List Nat) : Seeks next goal seen (goal :: stack) 1 true
  | again {seen stack : List Nat} {i turns : Nat} {answer : Bool} (hne : i ≠ goal) (h : i ∈ seen)
      (rest : Seeks next goal seen stack turns answer) :
      Seeks next goal seen (i :: stack) (turns + 1) answer
  | new {seen stack : List Nat} {i turns : Nat} {answer : Bool} (hne : i ≠ goal) (h : i ∉ seen)
      (rest : Seeks next goal (i :: seen) ((next.getD i []).reverse ++ stack) turns answer) :
      Seeks next goal seen (i :: stack) (turns + 1) answer

section
variable {next : Array (List Nat)} {seen stack : List Nat} {goal i j : Nat}

/-- in the beginning, all is ahead -/
theorem ahead_nil (next : Array (List Nat)) :
    ahead next [] next.size = next.toList.flatten.length := by
  have hbelow : ∀ n ≤ next.size, ahead next [] n = (next.toList.take n).flatten.length := by
    intro n hn
    induction n with
    | zero => rfl
    | succ n ih =>
      have hget : next.toList[n]? = some (next.getD n []) := by simp [Nat.lt_of_succ_le hn]
      rw [ahead, ih (by omega), List.take_add_one, hget, List.flatten_append, List.length_append]
      simp
  rw [hbelow _ (Nat.le_refl _), List.take_of_length_le (by simp)]

/-- **Gathering comes to an end**, whatever leads to what. -/
theorem gathers_gather (next : Array (List Nat)) (seen stack : List Nat) :
    ∃ turns ≤ stack.length + ahead next seen next.size,
      Gathers next seen stack turns (gather next seen stack) := by
  fun_induction gather next seen stack with
  | case1 seen => exact ⟨0, Nat.zero_le _, .done seen⟩
  | case2 seen i stack hseen ih =>
    obtain ⟨turns, hturns, hrest⟩ := ih
    refine ⟨turns + 1, ?_, .again (List.contains_iff_mem.mp hseen) hrest⟩
    rw [List.length_cons]
    omega
  | case3 seen i stack hnew ih =>
    obtain ⟨turns, hturns, hrest⟩ := ih
    refine ⟨turns + 1, ?_, .new (fun h => hnew (List.contains_iff_mem.mpr h)) hrest⟩
    -- what goes on the stack is no longer ahead
    have hless := ahead_seen next (Bool.eq_false_iff.mpr hnew)
    rw [List.length_append] at hturns
    rw [List.length_cons]
    omega

/-- **Seeking comes to an end**, whatever leads to what. -/
theorem seeks_leadsTo (next : Array (List Nat)) (goal : Nat) (seen stack : List Nat) :
    ∃ turns ≤ stack.length + ahead next seen next.size,
      Seeks next goal seen stack turns (leadsTo next goal seen stack) := by
  fun_induction leadsTo next goal seen stack with
  | case1 seen => exact ⟨0, Nat.zero_le _, .done seen⟩
  | case2 seen stack =>
    refine ⟨1, ?_, .here seen stack⟩
    rw [List.length_cons]
    omega
  | case3 seen i stack hne hseen ih =>
    obtain ⟨turns, hturns, hrest⟩ := ih
    refine ⟨turns + 1, ?_, .again hne (List.contains_iff_mem.mp hseen) hrest⟩
    rw [List.length_cons]
    omega
  | case4 seen i stack hne hnew ih =>
    obtain ⟨turns, hturns, hrest⟩ := ih
    refine ⟨turns + 1, ?_, .new hne (fun h => hnew (List.contains_iff_mem.mpr h)) hrest⟩
    have hless := ahead_seen next (Bool.eq_false_iff.mpr hnew)
    rw [List.length_append, List.length_reverse] at hturns
    rw [List.length_cons]
    omega

/-! ## what is found -/

/-- some number on the stack leads to it, at once or by others, or is it -/
def Reached (next : Array (List Nat)) (stack : List Nat) (j : Nat) : Prop :=
  ∃ i ∈ stack, Relation.ReflTransGen (Onward next) i j

theorem reached_cons : Reached next (i :: stack) j ↔
    Relation.ReflTransGen (Onward next) i j ∨ Reached next stack j := by
  simp [Reached]

theorem reached_append {more : List Nat} : Reached next (more ++ stack) j ↔
    Reached next more j ∨ Reached next stack j := by
  simp [Reached, or_and_right, exists_or]

/-- the top of the stack may give way to all that it leads to -/
theorem reached_next {more : List Nat} (hmore : ∀ j, j ∈ more ↔ Onward next i j) :
    Reached next (i :: stack) j ↔ i = j ∨ Reached next (more ++ stack) j := by
  rw [reached_cons, reached_append, Relation.ReflTransGen.cases_head_iff, or_assoc]
  simp only [Reached, hmore]

/-- what has been seen leads to nothing but what has been seen or is on the stack -/
def Frontier (next : Array (List Nat)) (seen stack : List Nat) : Prop :=
  ∀ i ∈ seen, ∀ j, Onward next i j → j ∈ seen ∨ j ∈ stack

namespace Frontier

theorem nil (next : Array (List Nat)) (stack : List Nat) : Frontier next [] stack := by
  intro i hi
  cases hi

/-- a number that has been seen may go from the stack -/
theorem again (h : Frontier next seen (i :: stack)) (hi : i ∈ seen) : Frontier next seen stack := by
  intro k hk j hj
  rcases h k hk j hj with hseen | hstack
  · exact .inl hseen
  · rcases List.mem_cons.mp hstack with rfl | hstack
    · exact .inl hi
    · exact .inr hstack

/-- a number counts as seen once all that it leads to is on the stack -/
theorem new (h : Frontier next seen (i :: stack)) {more : List Nat}
    (hmore : ∀ j, j ∈ more ↔ Onward next i j) : Frontier next (i :: seen) (more ++ stack) := by
  intro k hk j hj
  rcases List.mem_cons.mp hk with rfl | hk
  · exact .inr (List.mem_append_left _ ((hmore j).mpr hj))
  · rcases h k hk j hj with hseen | hstack
    · exact .inl (List.mem_cons_of_mem _ hseen)
    · rcases List.mem_cons.mp hstack with rfl | hstack
      · exact .inl List.mem_cons_self
      · exact .inr (List.mem_append_right _ hstack)

/-- the way from what has been seen to what has not goes over the stack -/
theorem crosses (h : Frontier next seen stack) (hi : i ∈ seen)
    (hway : Relation.ReflTransGen (Onward next) i j) : j ∈ seen ∨ Reached next stack j := by
  induction hway using Relation.ReflTransGen.head_induction_on with
  | refl => exact .inl hi
  | head hstep hway ih =>
    rcases h _ hi _ hstep with hseen | hstack
    · exact ih hseen
    · exact .inr ⟨_, hstack, hway⟩

end Frontier

/-- **All that the stack leads to is gathered, and nothing else.** -/
theorem mem_gather (h : Frontier next seen stack) :
    j ∈ gather next seen stack ↔ j ∈ seen ∨ Reached next stack j := by
  fun_induction gather next seen stack with
  | case1 seen => simp [Reached]
  | case2 seen i stack hseen ih =>
    have hi := List.contains_iff_mem.mp hseen
    have hrest := h.again hi
    rw [ih hrest, reached_cons]
    constructor
    · exact Or.imp_right .inr
    · rintro (hj | hway | hstack)
      · exact .inl hj
      · exact hrest.crosses hi hway
      · exact .inr hstack
  | case3 seen i stack hnew ih =>
    have hmore : ∀ j, j ∈ next.getD i [] ↔ Onward next i j := fun _ => .rfl
    rw [ih (h.new hmore), reached_next hmore, List.mem_cons, or_assoc, or_left_comm, eq_comm]

/-- **The goal is found just if the stack leads to it.** -/
theorem leadsTo_iff (h : Frontier next seen stack) (hgoal : goal ∉ seen) :
    leadsTo next goal seen stack = true ↔ Reached next stack goal := by
  fun_induction leadsTo next goal seen stack with
  | case1 seen => simp [Reached]
  | case2 seen stack => exact ⟨fun _ => ⟨goal, List.mem_cons_self, .refl⟩, fun _ => rfl⟩
  | case3 seen i stack hne hseen ih =>
    have hi := List.contains_iff_mem.mp hseen
    have hrest := h.again hi
    rw [ih hrest hgoal, reached_cons]
    refine ⟨.inr, ?_⟩
    rintro (hway | hstack)
    · exact (hrest.crosses hi hway).resolve_left hgoal
    · exact hstack
  | case4 seen i stack hne hnew ih =>
    have hmore : ∀ j, j ∈ (next.getD i []).reverse ↔ Onward next i j := fun _ => List.mem_reverse
    have hgoal' : goal ∉ i :: seen := by
      rw [List.mem_cons, not_or]
      exact ⟨Ne.symm hne, hgoal⟩
    rw [ih (h.new hmore) hgoal', reached_next hmore, or_iff_right hne]

end

/-! ## parsers and rules -/

/-- the second parser is one of the operands of the first -/
def Operand {τ : Type} (nodes : Array (Node τ)) (whole part : Nat) : Prop :=
  ∃ node, nodes[whole]? = some node ∧ part ∈ node.operands

theorem onward_operands {τ : Type} (nodes : Array (Node τ)) :
    Onward (nodes.map Node.operands) = Operand nodes := by
  funext whole part
  rw [Onward, Operand, Array.getD_eq_getD_getElem?, Array.getElem?_map]
  cases nodes[whole]? with
  | none => simp
  | some node => simp

/-- **The parsers that a parser consists of are those that its operands lead to.** -/
theorem mem_nodesUnder {τ : Type} {nodes : Array (Node τ)} {i j : Nat} :
    j ∈ nodesUnder nodes i ↔ Relation.ReflTransGen (Operand nodes) i j := by
  rw [nodesUnder, mem_gather (.nil _ _), reached_cons, onward_operands]
  simp [Reached]

/-- **A rule is recursive just if a chain of one or more calls leads from it back to it.** -/
theorem isRecursive_iff {calls : Array (List Nat)} {rule : Nat} :
    isRecursive calls rule = true ↔ Relation.TransGen (Onward calls) rule rule := by
  rw [isRecursive, leadsTo_iff (.nil _ _) List.not_mem_nil, Relation.TransGen.head'_iff]
  simp only [Reached, List.mem_reverse, Onward]

end Packrat
