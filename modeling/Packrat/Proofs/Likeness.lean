import Packrat.Tree.Walk

/-!
# Trees up to their spans

* `Tree.bare`       the tree without its spans;
* `Tree.same_iff`   two trees are the same exactly if nothing else but spans tells them apart.
-/

namespace Packrat

namespace Tree
variable {τ : Type}

mutual

/-- the tree with all spans erased -/
def bare : Tree τ → Tree τ
  | .leaf tag text _ => .leaf tag text ⟨0, 0⟩
  | .branch tag children => .branch tag (bares children)

/-- the trees with all spans erased -/
def bares : List (Tree τ) → List (Tree τ)
  | [] => []
  | t :: ts => t.bare :: bares ts

end

@[simp] theorem bare_leaf (tag : Option τ) (text : String) (span : Span) :
    (leaf tag text span).bare = leaf tag text ⟨0, 0⟩ := by rw [bare]

@[simp] theorem bare_branch (tag : Option τ) (children : List (Tree τ)) :
    (branch tag children).bare = branch tag (children.map bare) := by
  have h : ∀ ts : List (Tree τ), bares ts = ts.map bare := by
    intro ts
    induction ts with
    | nil => rw [bares, List.map_nil]
    | cons t ts ih => rw [bares, List.map_cons, ih]
  rw [bare, h]

theorem bare_eq_iff (t u : Tree τ) : t.bare = u.bare ↔
    t.tag = u.tag ∧ t.text? = u.text? ∧ t.children.map bare = u.children.map bare := by
  cases t <;> cases u <;> simp [tag, text?, children]

/-- trees are alike in order exactly if there are as many, and they are alike in pairs -/
theorem map_bare_eq_iff (ts us : List (Tree τ)) : ts.map bare = us.map bare ↔
    ts.length = us.length ∧ ∀ x ∈ ts.zip us, x.1.bare = x.2.bare := by
  induction ts generalizing us with
  | nil => cases us <;> simp
  | cons t ts ih =>
    cases us with
    | nil => simp
    | cons u us =>
      have hzip : (t :: ts).zip (u :: us) = (t, u) :: ts.zip us := rfl
      rw [List.map_cons, List.map_cons, List.cons.injEq, ih us, hzip, List.forall_mem_cons]
      simp only [List.length_cons, Nat.add_right_cancel_iff]
      constructor
      · rintro ⟨h, hlength, hall⟩
        exact ⟨hlength, h, hall⟩
      · rintro ⟨hlength, h, hall⟩
        exact ⟨h, hlength, hall⟩

/-! What a tree without spans can come from. -/

theorem bare_eq_leaf {tag : Option τ} {text : String} {span : Span} {u : Tree τ}
    (h : (leaf tag text span).bare = u.bare) : ∃ span', u = leaf tag text span' := by
  cases u with
  | leaf tag' text' span' =>
    rw [bare_leaf, bare_leaf, leaf.injEq] at h
    obtain ⟨rfl, rfl, -⟩ := h
    exact ⟨span', rfl⟩
  | branch tag' us =>
    rw [bare_branch, bare_leaf] at h
    cases h

theorem bare_eq_branch {tag : Option τ} {ts : List (Tree τ)} {u : Tree τ}
    (h : (branch tag ts).bare = u.bare) : ∃ us, u = branch tag us ∧ ts.map bare = us.map bare := by
  cases u with
  | leaf tag' text span =>
    rw [bare_branch, bare_leaf] at h
    cases h
  | branch tag' us =>
    rw [bare_branch, bare_branch, branch.injEq] at h
    obtain ⟨rfl, hmap⟩ := h
    exact ⟨us, rfl, hmap⟩

theorem map_bare_eq_cons {t : Tree τ} {ts us : List (Tree τ)}
    (h : (t :: ts).map bare = us.map bare) :
    ∃ v vs, us = v :: vs ∧ t.bare = v.bare ∧ ts.map bare = vs.map bare := by
  obtain ⟨v, vs, hus, hv, hvs⟩ := List.map_eq_cons_iff.mp h.symm
  exact ⟨v, vs, hus, hv.symm, hvs.symm⟩

variable [BEq τ] [LawfulBEq τ]

theorem sameAll_iff (pending : List (Tree τ × Tree τ)) :
    sameAll pending = true ↔ ∀ x ∈ pending, x.1.bare = x.2.bare := by
  fun_induction sameAll pending with
  | case1 => simp
  | case2 t u pending ih =>
    -- the children of the first pair are compared together with what is pending
    have hpair := bare_eq_iff t u
    rw [map_bare_eq_iff] at hpair
    simp only [Bool.and_eq_true, beq_iff_eq, ih, List.forall_mem_append, List.mem_reverse,
      List.forall_mem_cons, hpair]
    constructor
    · rintro ⟨⟨⟨htag, htext⟩, hlength⟩, hchildren, hpending⟩
      exact ⟨⟨htag, htext, hlength, hchildren⟩, hpending⟩
    · rintro ⟨⟨htag, htext, hlength, hchildren⟩, hpending⟩
      exact ⟨⟨⟨htag, htext⟩, hlength⟩, hchildren, hpending⟩

/-- **Two trees are the same exactly if they are identical once all spans are erased.** -/
theorem same_iff (t u : Tree τ) : t.same u = true ↔ t.bare = u.bare := by
  rw [same, sameAll_iff, List.forall_mem_singleton]

end Tree

end Packrat
