import Packrat.Text.Quoted
import Packrat.Tree.Basic

/-!
# Trees in writing

* `Tree.Piece`      something still to be written: a tree behind some punctuation, or punctuation;
* `Tree.render`     `Tag("text")` for a leaf, `Tag(child, child)` for a branch, `Tag` without
                    children, with `_` where there is no tag.
-/

namespace Packrat

namespace Tree
variable {τ : Type}

/-- something still to be written -/
inductive Piece (τ : Type) where
  /-- a tree behind some punctuation -/
  | node (lead : String) (t : Tree τ)
  /-- punctuation -/
  | text (s : String)

namespace Piece

/-- how much there is to write: two units for each node -/
def weight : Piece τ → Nat
  | .node _ t => 2 * t.size
  | .text _ => 1

/-- how much there is to write in several pieces -/
def weights : List (Piece τ) → Nat
  | [] => 0
  | p :: pending => p.weight + weights pending

theorem weights_append (ps qs : List (Piece τ)) : weights (ps ++ qs) = weights ps + weights qs := by
  induction ps with
  | nil => rw [List.nil_append, weights, Nat.zero_add]
  | cons p ps ih => rw [List.cons_append, weights, weights, ih, Nat.add_assoc]

def further (ts : List (Tree τ)) : List (Piece τ) := ts.map (.node ", ")

theorem weights_further (ts : List (Tree τ)) : weights (further ts) = 2 * sizes ts := by
  induction ts with
  | nil => rfl
  | cons t ts ih =>
    rw [further, List.map_cons, weights, ← further, ih, sizes_cons, weight, Nat.mul_add]

end Piece

variable [Tag τ]

/-- writes the pending pieces after `out` -/
def renderOnto (out : String) : List (Piece τ) → String
  | [] => out
  | .text s :: pending => renderOnto (out ++ s) pending
  | .node lead (.leaf tag text _) :: pending =>
    renderOnto (out ++ lead ++ Tag.ofNode tag ++ "(" ++ quote text ++ ")") pending
  | .node lead (.branch tag []) :: pending => renderOnto (out ++ lead ++ Tag.ofNode tag) pending
  | .node lead (.branch tag (c :: cs)) :: pending =>
    renderOnto (out ++ lead ++ Tag.ofNode tag ++ "(")
      (.node "" c :: Piece.further cs ++ .text ")" :: pending)
termination_by pending => Piece.weights pending
decreasing_by
  · rw [Piece.weights, Piece.weight]
    omega
  · rw [Piece.weights, Piece.weight, size]
    omega
  · rw [Piece.weights, Piece.weight, size]
    omega
  · rw [Piece.weights_append, Piece.weights, Piece.weights, Piece.weights, Piece.weights_further,
      Piece.weight, Piece.weight, Piece.weight, size, sizes_cons]
    omega

def render (t : Tree τ) : String := renderOnto "" [.node "" t]

/-- the tree in writing, marked as a tree -/
def describe (t : Tree τ) : String := "Ast(" ++ t.render ++ ")"

end Tree

end Packrat
