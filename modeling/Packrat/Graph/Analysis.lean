import Packrat.Graph.Basic

/-!
# What can be known about rules beforehand

* `exhaust`           the truths that follow from given ones, by passes, in which each judgement counts
                      at once for those after it;
* `nullableNodes`     which parsers can match without moving on;
* `gather`            a search for all numbers that some numbers lead to;
* `nodesUnder`        the parsers that a parser consists of, references not followed;
* `leadsTo`           a search for one number, which ends as soon as it is found;
* `calledRules`, `isRecursive`   the rules that a rule names, and whether they lead back to it;
* `analyze`           the facts of all rules, and which of them repeat a nullable parser.

Both searches keep a stack of numbers to look at, its top first, and the numbers that they have looked
at, the last first.  Each turn takes one number off the stack; what a number leads to goes on the stack
only the first time, so there is an end to it (`ahead`).
-/

namespace Packrat

def isKnown (known : Array Bool) (i : Nat) : Bool := known.getD i false

/-- judges one number by all that is known by then: a truth stays a truth -/
def judge (step : Array Bool → Nat → Bool) (known : Array Bool) (i : Nat) : Array Bool :=
  if isKnown known i then known else known.setIfInBounds i (step known i)

def pass (step : Array Bool → Nat → Bool) (known : Array Bool) : Array Bool :=
  (List.range known.size).foldl (judge step) known

/-- passes until one changes nothing, at most as many as given -/
def exhaust (step : Array Bool → Nat → Bool) : Nat → Array Bool → Array Bool
  | 0, known => known
  | passes + 1, known =>
    let more := pass step known
    if more = known then known else exhaust step passes more

/-! ## searches -/

/-- how many numbers those below `n` lead to, as far as they are not among `seen` -/
def ahead (next : Array (List Nat)) (seen : List Nat) : Nat → Nat
  | 0 => 0
  | n + 1 => ahead next seen n + if seen.contains n then 0 else (next.getD n []).length

theorem ahead_cons (next : Array (List Nat)) {seen : List Nat} {i : Nat}
    (h : seen.contains i = false) (n : Nat) :
    ahead next (i :: seen) n + (if i < n then (next.getD i []).length else 0) =
      ahead next seen n := by
  induction n with
  | zero => rfl
  | succ n ih =>
    rw [ahead, ahead, List.contains_cons]
    by_cases hi : i = n
    · subst hi
      simp_all
    · have hne : (n == i) = false := by simpa using Ne.symm hi
      have hlt : i < n + 1 ↔ i < n := by omega
      simp only [hne, Bool.false_or, hlt]
      omega

/-- what a number leads to is counted no longer once it has been seen -/
theorem ahead_seen (next : Array (List Nat)) {seen : List Nat} {i : Nat}
    (h : seen.contains i = false) :
    ahead next (i :: seen) next.size + (next.getD i []).length = ahead next seen next.size := by
  rw [← ahead_cons next h next.size, Nat.add_left_cancel_iff]
  by_cases hi : i < next.size
  · rw [if_pos hi]
  · rw [if_neg hi, Array.getD_eq_getD_getElem?, Array.getElem?_eq_none (by omega)]
    rfl

/-- the numbers that those on the stack lead to, in the order in which they are come upon, after those
seen already -/
def gather (next : Array (List Nat)) (seen : List Nat) : List Nat → List Nat
  | [] => seen.reverse
  | i :: stack =>
    if seen.contains i then gather next seen stack
    else gather next (i :: seen) (next.getD i [] ++ stack)
termination_by stack => stack.length + ahead next seen next.size
decreasing_by
  · simp
  · next hnew =>
    have hless := ahead_seen next (Bool.eq_false_iff.mpr hnew)
    simp only [List.length_append, List.length_cons]
    omega

/-- whether those on the stack lead to the goal: what the goal itself leads to does not matter, for the
search ends there -/
def leadsTo (next : Array (List Nat)) (goal : Nat) (seen : List Nat) : List Nat → Bool
  | [] => false
  | i :: stack =>
    if i = goal then true
    else if seen.contains i then leadsTo next goal seen stack
    else leadsTo next goal (i :: seen) ((next.getD i []).reverse ++ stack)
termination_by stack => stack.length + ahead next seen next.size
decreasing_by
  · simp
  · next hnew =>
    have hless := ahead_seen next (Bool.eq_false_iff.mpr hnew)
    simp only [List.length_append, List.length_reverse, List.length_cons]
    omega

/-! ## parsers and rules -/

section
variable {τ : Type} (nodes : Array (Node τ)) (roots : Array Nat)

/-- whether a parser can match without moving on, given what is known of the parsers -/
def Node.isNullable (known : Array Bool) : Node τ → Bool
  | .leaf _ none _ => false
  | .leaf _ (some pattern) _ => pattern.isNullable
  | .sequence parts _ => parts.all (isKnown known)
  | .alternative choices _ => choices.any (isKnown known)
  | .repetition _ .zeroOrMore _ => true
  | .repetition inner .oneOrMore _ => isKnown known inner
  | .optional _ => true
  | .reference _ none => false
  | .reference _ (some rule) =>
    match roots[rule]? with
    | none => false
    | some root => isKnown known root

def nullableStep (known : Array Bool) (i : Nat) : Bool :=
  match nodes[i]? with
  | none => false
  | some node => node.isNullable roots known

def nullableNodes : Array Bool :=
  exhaust (nullableStep nodes roots) (nodes.size + 1) (Array.replicate nodes.size false)

/-- the numbers of the parsers that parser `i` consists of, itself first -/
def nodesUnder (i : Nat) : List Nat := gather (nodes.map Node.operands) [] [i]

def parts (i : Nat) : List (Node τ) := (nodesUnder nodes i).filterMap (nodes[·]?)

def calledRules (i : Nat) : List Nat :=
  (parts nodes i).filterMap fun
    | .reference _ rule => rule
    | _ => none

def hasUnresolved (i : Nat) : Bool :=
  (parts nodes i).any fun
    | .reference _ none => true
    | _ => false

/-- whether some part of parser `i` repeats a parser that is known to be nullable -/
def repeatsNullable (known : Array Bool) (i : Nat) : Bool :=
  (parts nodes i).any fun
    | .repetition inner _ _ => isKnown known inner
    | _ => false

end

def isRecursive (calls : Array (List Nat)) (rule : Nat) : Bool :=
  leadsTo calls rule [] (calls.getD rule []).reverse

def factsOf {τ : Type} (nodes : Array (Node τ)) (nullable : Array Bool) (calls : Array (List Nat))
    (rule root : Nat) : Facts :=
  ⟨isKnown nullable root, isRecursive calls rule, hasUnresolved nodes root⟩

/-- the facts of all rules with these roots, in order -/
def analyze {τ : Type} (nodes : Array (Node τ)) (roots : Array Nat) : Array Facts :=
  let nullable := nullableNodes nodes roots
  let calls := roots.map (calledRules nodes)
  roots.mapIdx (factsOf nodes nullable calls)

/-- for each rule with these roots, whether it repeats a nullable parser -/
def nullableRepetitions {τ : Type} (nodes : Array (Node τ)) (roots : Array Nat) : Array Bool :=
  roots.map (repeatsNullable nodes (nullableNodes nodes roots))

end Packrat
