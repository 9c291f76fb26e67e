import Packrat.Graph.Compile

/-!
# Parts come before what they are part of

* `Node.Before`            the parts of a node have numbers below a bound;
* `Ordered base nodes`     in a block of nodes that begins with the number `base`, parts have smaller
                           numbers than what they are part of;
* `layOut_ordered`         blocks that are ordered make an ordered block;
* `Grammar.operand_lt`     in the graph of a grammar, parts have smaller numbers.
-/

namespace Packrat

section
variable {τ β : Type}

/-- every part of the node has a number below `n` -/
def Node.Before (n : Nat) (node : Node τ) : Prop := ∀ part ∈ node.operands, part < n

/-- in a block that begins with the number `base`, parts come before what they are part of -/
def Ordered (base : Nat) (nodes : List (Node τ)) : Prop :=
  ∀ (i : Nat) (node : Node τ), nodes[i]? = some node → node.Before (base + i)

theorem ordered_nil (base : Nat) : Ordered base ([] : List (Node τ)) := by
  intro i node h
  cases h

theorem Ordered.append {base : Nat} {xs ys : List (Node τ)} (hx : Ordered base xs)
    (hy : Ordered (base + xs.length) ys) : Ordered base (xs ++ ys) := by
  intro i node h
  by_cases hi : i < xs.length
  · rw [List.getElem?_append_left hi] at h
    exact hx i node h
  · rw [List.getElem?_append_right (by omega)] at h
    have hnode := hy (i - xs.length) node h
    rwa [show base + xs.length + (i - xs.length) = base + i by omega] at hnode

theorem ordered_singleton {base : Nat} {node : Node τ} (h : node.Before base) :
    Ordered base [node] := by
  intro i other hi
  cases i with
  | zero =>
    cases hi
    exact h
  | succ i => cases hi

/-! ## blocks in a row -/

variable {nodes : Nat → β → List (Node τ)}

theorem layOut_ordered (h : ∀ base b, Ordered base (nodes base b)) (base : Nat) (bs : List β) :
    Ordered base (layOut nodes base bs).1 := by
  induction bs generalizing base with
  | nil => exact ordered_nil base
  | cons b bs ih => exact (h base b).append (ih _)

/-- the last nodes of the blocks come before what follows the blocks -/
theorem layOut_lt (h : ∀ base b, 0 < (nodes base b).length) (base : Nat) (bs : List β) :
    ∀ last ∈ (layOut nodes base bs).2, last < base + (layOut nodes base bs).1.length := by
  induction bs generalizing base with
  | nil =>
    intro last hlast
    cases hlast
  | cons b bs ih =>
    intro last hlast
    have hpos := h base b
    have hlength : (layOut nodes base (b :: bs)).1.length = (nodes base b).length +
        (layOut nodes (base + (nodes base b).length) bs).1.length := List.length_append
    rw [hlength]
    rcases List.mem_cons.mp hlast with rfl | hlast
    · omega
    · have := ih _ last hlast
      omega

/-- one more node, for a thing whose parts are the blocks -/
theorem layOut_append (hpos : ∀ base b, 0 < (nodes base b).length)
    (hordered : ∀ base b, Ordered base (nodes base b)) (base : Nat) (bs : List β) {whole : Node τ}
    (hwhole : whole.operands = (layOut nodes base bs).2) :
    Ordered base ((layOut nodes base bs).1 ++ [whole]) := by
  refine (layOut_ordered hordered base bs).append (ordered_singleton fun part hpart => ?_)
  rw [hwhole] at hpart
  exact layOut_lt hpos base bs part hpart

end

/-! ## the nodes of a grammar -/

section
variable {τ : Type} (index : String → Option Nat)

theorem Step.nodes_pos (base : Nat) (s : Step τ) : 0 < (s.nodes index base).length := by
  cases s with
  | leaf source role => exact Nat.one_pos
  | call name => exact Nat.one_pos
  | repetition name bound shape => exact Nat.two_pos
  | maybe name => exact Nat.two_pos
  | anyOf names =>
    rw [nodes, List.length_append]
    exact Nat.succ_pos _

theorem Step.nodes_ordered (base : Nat) (s : Step τ) : Ordered base (s.nodes index base) := by
  have hreference : ∀ (name : String) (n : Nat),
      (Node.reference name (index name) : Node τ).Before n := fun _ _ _ h => nomatch h
  cases s with
  | leaf source role => exact ordered_singleton fun _ h => nomatch h
  | call name => exact ordered_singleton (hreference name base)
  | repetition name bound shape =>
    refine (ordered_singleton (hreference name base)).append (ordered_singleton fun part h => ?_)
    rw [List.mem_singleton.mp h]
    exact Nat.lt_succ_self base
  | maybe name =>
    refine (ordered_singleton (hreference name base)).append (ordered_singleton fun part h => ?_)
    rw [List.mem_singleton.mp h]
    exact Nat.lt_succ_self base
  | anyOf names =>
    refine Ordered.append ?_ (ordered_singleton fun part h => ?_)
    · intro i node h
      obtain ⟨name, -, rfl⟩ := List.mem_map.mp (List.mem_of_getElem? h)
      exact hreference name _
    · rw [List.length_map]
      obtain ⟨i, hi, rfl⟩ := List.mem_range'.mp h
      omega

theorem Clause.nodes_pos (base : Nat) (c : Clause τ) : 0 < (c.nodes index base).length := by
  rw [nodes, List.length_append]
  exact Nat.succ_pos _

theorem Clause.nodes_ordered (base : Nat) (c : Clause τ) : Ordered base (c.nodes index base) :=
  layOut_append (Step.nodes_pos index) (Step.nodes_ordered index) base c.steps rfl

theorem Rule.nodes_ordered (base : Nat) (r : Rule τ) : Ordered base (r.nodes index base) := by
  rw [nodes]
  split
  · exact layOut_ordered (Clause.nodes_ordered index) base r.clauses
  · exact layOut_append (Clause.nodes_pos index) (Clause.nodes_ordered index) base r.clauses rfl

/-- **In the graph of a grammar, parts have smaller numbers than what they are part of.** -/
theorem Grammar.operand_lt (grammar : Grammar τ) {i : Nat} {node : Node τ}
    (h : grammar.compile.nodes[i]? = some node) : ∀ part ∈ node.operands, part < i := by
  have hnode : grammar.nodes.1[i]? = some node := by
    rw [← h]
    exact List.getElem?_toArray.symm
  have hbefore := layOut_ordered (Rule.nodes_ordered grammar.index) 0 grammar.definitions i node hnode
  rwa [Nat.zero_add] at hbefore

end

end Packrat
