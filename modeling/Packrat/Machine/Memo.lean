import Packrat.Fragment
import Std.Data.TreeMap

/-!
# Remembered attempts

* `Memo.Key`         an attempt at a rule: the offset and the number of the rule;
* `Memo.Key.order`   attempts by offset, and by rule at one offset;
* `Memo.Entry`       an attempt is under way, or it is done: its result, and where it ended;
* `Memo`             what is known of the attempts made so far.
-/

namespace Packrat

/-- an attempt at a rule -/
structure Memo.Key where
  offset : Nat
  rule : Nat
deriving DecidableEq

namespace Memo.Key

/-- attempts by offset, and by rule at one offset -/
def order : Key → Key → Ordering := compareLex (compareOn offset) (compareOn rule)

instance : Std.TransCmp order :=
  inferInstanceAs (Std.TransCmp (compareLex (compareOn offset) (compareOn rule)))

/-- no two attempts have the same place in the order -/
theorem order_eq_iff {j k : Key} : order j k = .eq ↔ j = k := by
  cases j with
  | mk o r =>
    cases k with
    | mk o' r' =>
      rw [order, compareLex_eq_eq, compareOn, compareOn, Nat.compare_eq_eq, Nat.compare_eq_eq,
        mk.injEq]

instance : Std.LawfulEqCmp order where
  eq_of_compare h := order_eq_iff.mp h

end Memo.Key

/-- what is known of an attempt -/
inductive Memo.Entry (τ : Type) where
  | inProgress
  /-- the result, and the place after it; after a failure the place where it began -/
  | done (result : Option (Fragment τ)) (stop : Place)

abbrev Memo (τ : Type) := Std.TreeMap Memo.Key (Memo.Entry τ) Memo.Key.order

end Packrat
