/-!
# Stacks that know their height

* `Pile`            a stack with the number of its items at hand;
* `Pile.push`, `Pile.pop?`   as usual, the item on top first.
-/

namespace Packrat

/-- a stack, the item on top first, together with its height -/
structure Pile (α : Type) where
  items : List α
  height : Nat
  height_eq : height = items.length

namespace Pile
variable {α : Type}

def empty : Pile α := ⟨[], 0, rfl⟩

def push (a : α) : Pile α → Pile α
  | ⟨items, height, h⟩ => ⟨a :: items, height + 1, by rw [h, List.length_cons]⟩

def pop? : Pile α → Option (α × Pile α)
  | ⟨[], _, _⟩ => none
  | ⟨a :: items, height, h⟩ =>
    some (a, ⟨items, height - 1, by rw [h, List.length_cons, Nat.add_sub_cancel]⟩)

@[simp] theorem items_empty : (empty : Pile α).items = [] := rfl

@[simp] theorem items_push (a : α) (p : Pile α) : (p.push a).items = a :: p.items := rfl

/-- a stack is determined by its items -/
theorem ext_items {p q : Pile α} (h : p.items = q.items) : p = q := by
  cases p with
  | mk items height hp =>
    cases q with
    | mk items' height' hq =>
      cases h
      cases hp
      cases hq
      rfl

/-- taking off what was just put on -/
@[simp] theorem pop?_push (a : α) (p : Pile α) : (p.push a).pop? = some (a, p) := by
  cases p
  rfl

@[simp] theorem pop?_empty : (empty : Pile α).pop? = none := rfl

end Pile

end Packrat
