import Packrat.Proofs.Captures
import Packrat.Proofs.Rendering

/-!
# Traversals by recursion

Each traversal of a tree keeps a stack of its own, with what is still to be visited.  Here they are
shown to do what a recursion over the tree would do.

* `Tree.subtree?`     the subtree at an address, which is the list of the children to go down to;
* `Tree.located`      all subtrees with their addresses, parents before children;
* `Tree.mem_located`, `Tree.located_sorted`   each address of the tree is listed, and they are in
                      lexicographic order, so that none is listed twice;
* `Tree.walk_eq_located`   a walk visits what is listed, in that order;
* `Tree.height`       the nodes on the longest way down, and `Tree.deepest_eq` what the loop for
                      the depth keeps;
* `traversals_recurse`   the recursions that walks, depths, renderings and comparisons amount to.
-/

namespace Packrat

namespace Tree
variable {τ : Type}

/-! ## addresses -/

/-- the subtree at an address: the number of a child, the number of a child of that one, and so on;
there is none if the address leads out of the tree -/
def subtree? : List Nat → Tree τ → Option (Tree τ)
  | [], t => some t
  | i :: address, t => t.children[i]?.bind (subtree? address)

mutual

/-- all subtrees with their addresses, parents before children and children from left to right -/
def located : Tree τ → List (List Nat × Tree τ)
  | .leaf tag text span => [([], .leaf tag text span)]
  | .branch tag children => ([], .branch tag children) :: locatedFrom 0 children

/-- the same for several children of one node, of which the first has that number -/
def locatedFrom : Nat → List (Tree τ) → List (List Nat × Tree τ)
  | _, [] => []
  | i, t :: ts => t.located.map (fun x => (i :: x.1, x.2)) ++ locatedFrom (i + 1) ts

end

@[simp] theorem locatedFrom_nil (i : Nat) : locatedFrom i ([] : List (Tree τ)) = [] := by
  rw [locatedFrom]

@[simp] theorem locatedFrom_cons (i : Nat) (t : Tree τ) (ts : List (Tree τ)) :
    locatedFrom i (t :: ts) =
      t.located.map (fun x => (i :: x.1, x.2)) ++ locatedFrom (i + 1) ts := by
  rw [locatedFrom]

theorem located_eq (t : Tree τ) : t.located = ([], t) :: locatedFrom 0 t.children := by
  cases t with
  | leaf tag text span => rw [located, children, locatedFrom_nil]
  | branch tag ts => rw [located, children]

theorem mem_locatedFrom {i : Nat} {ts : List (Tree τ)} {address : List Nat} {u : Tree τ} :
    (address, u) ∈ locatedFrom i ts ↔
      ∃ k rest t, address = (i + k) :: rest ∧ ts[k]? = some t ∧ (rest, u) ∈ t.located := by
  induction ts generalizing i with
  | nil => simp
  | cons t ts ih =>
    rw [locatedFrom_cons, List.mem_append, List.mem_map, ih]
    constructor
    · rintro (⟨⟨rest, v⟩, hmem, heq⟩ | ⟨k, rest, v, rfl, hv, hmem⟩)
      · cases heq
        exact ⟨0, rest, t, rfl, rfl, hmem⟩
      · exact ⟨k + 1, rest, v, by rw [Nat.add_assoc, Nat.add_comm 1], hv, hmem⟩
    · rintro ⟨k, rest, v, rfl, hv, hmem⟩
      cases k with
      | zero =>
        cases hv
        exact .inl ⟨(rest, u), hmem, rfl⟩
      | succ k => exact .inr ⟨k, rest, v, by rw [Nat.add_assoc, Nat.add_comm 1], hv, hmem⟩

/-- **What is listed is what stands at an address of the tree.** -/
theorem mem_located {t u : Tree τ} {address : List Nat} :
    (address, u) ∈ t.located ↔ t.subtree? address = some u := by
  induction address generalizing t with
  | nil =>
    rw [located_eq, List.mem_cons, mem_locatedFrom]
    simp [subtree?, eq_comm]
  | cons i rest ih =>
    rw [located_eq, List.mem_cons, mem_locatedFrom, subtree?, Option.bind_eq_some_iff]
    constructor
    · rintro (heq | ⟨k, rest', v, heq, hv, hmem⟩)
      · cases heq
      · rw [Nat.zero_add] at heq
        cases heq
        exact ⟨v, hv, ih.mp hmem⟩
    · rintro ⟨v, hv, hsub⟩
      exact .inr ⟨i, rest, v, by rw [Nat.zero_add], hv, ih.mpr hsub⟩

theorem locatedFrom_sorted {i : Nat} {ts : List (Tree τ)}
    (h : ∀ t ∈ ts, (t.located.map Prod.fst).Pairwise (· < ·)) :
    ((locatedFrom i ts).map Prod.fst).Pairwise (· < ·) := by
  induction ts generalizing i with
  | nil => simp
  | cons t ts ih =>
    obtain ⟨ht, hts⟩ := List.forall_mem_cons.mp h
    rw [locatedFrom_cons, List.map_append, List.pairwise_append]
    refine ⟨?_, ih hts, ?_⟩
    · rw [List.map_map, List.pairwise_map]
      exact (List.pairwise_map.mp ht).imp fun hlt => .cons hlt
    · -- the addresses on the left begin with `i`, those on the right with a larger number
      intro a ha b hb
      obtain ⟨⟨a', u⟩, hu, rfl⟩ := List.mem_map.mp ha
      obtain ⟨⟨rest, v⟩, -, heq⟩ := List.mem_map.mp hu
      cases heq
      obtain ⟨⟨b', w⟩, hw, rfl⟩ := List.mem_map.mp hb
      obtain ⟨k, rest', v', rfl, -, -⟩ := mem_locatedFrom.mp hw
      exact .rel (by omega)

/-- **The addresses are listed in lexicographic order**: those that begin with an address after it,
and the children of a node from left to right. -/
theorem located_sorted (t : Tree τ) : (t.located.map Prod.fst).Pairwise (· < ·) := by
  have hroot : ∀ u : Tree τ, ∀ b ∈ (locatedFrom 0 u.children).map Prod.fst,
      ([] : List Nat) < b := by
    intro u b hb
    obtain ⟨⟨address, v⟩, hv, rfl⟩ := List.mem_map.mp hb
    obtain ⟨k, rest, w, rfl, -, -⟩ := mem_locatedFrom.mp hv
    exact .nil
  induction t using induct with
  | leaf tag text span =>
    rw [located_eq, children, locatedFrom_nil]
    exact List.pairwise_singleton _ _
  | branch tag ts ih =>
    rw [located_eq, List.map_cons, List.pairwise_cons]
    exact ⟨hroot _, locatedFrom_sorted ih⟩

theorem map_snd_locatedFrom {i : Nat} {ts : List (Tree τ)}
    (h : ∀ t ∈ ts, t.walk = t.located.map Prod.snd) :
    (locatedFrom i ts).map Prod.snd = ts.flatMap walk := by
  induction ts generalizing i with
  | nil => simp
  | cons t ts ih =>
    obtain ⟨ht, hts⟩ := List.forall_mem_cons.mp h
    rw [locatedFrom_cons, List.map_append, ih hts, List.map_map, List.flatMap_cons, ht]
    rfl

/-- **A walk visits the subtrees in the order of their addresses.** -/
theorem walk_eq_located (t : Tree τ) : t.walk = t.located.map Prod.snd := by
  induction t using induct with
  | leaf tag text span => rw [walk_eq, located_eq, children, locatedFrom_nil]; rfl
  | branch tag ts ih =>
    rw [walk_eq, located_eq, List.map_cons, children, map_snd_locatedFrom ih]

/-! ## depth -/

mutual

/-- the number of nodes on the longest way down -/
def height : Tree τ → Nat
  | .leaf _ _ _ => 1
  | .branch _ children => 1 + heightBelow children

/-- the largest height of several trees, zero for none -/
def heightBelow : List (Tree τ) → Nat
  | [] => 0
  | t :: ts => max t.height (heightBelow ts)

end

@[simp] theorem heightBelow_nil : heightBelow ([] : List (Tree τ)) = 0 := by rw [heightBelow]

@[simp] theorem heightBelow_cons (t : Tree τ) (ts : List (Tree τ)) :
    heightBelow (t :: ts) = max t.height (heightBelow ts) := by rw [heightBelow]

theorem height_eq (t : Tree τ) : t.height = 1 + heightBelow t.children := by
  cases t with
  | leaf tag text span => rw [height, children, heightBelow_nil]
  | branch tag ts => rw [height, children]

theorem heightBelow_eq_max? (ts : List (Tree τ)) :
    heightBelow ts = (ts.map height).max?.getD 0 := by
  induction ts with
  | nil => simp
  | cons t ts ih =>
    rw [heightBelow_cons, ih, List.map_cons, List.max?_cons]
    cases (ts.map height).max? with
    | none => exact Nat.max_eq_left (Nat.zero_le _)
    | some n => rfl

/-- the largest depth of a node of the pending trees, which are given with the depths of their
roots -/
def reach : List (Tree τ × Nat) → Nat
  | [] => 0
  | (t, d) :: pending => max (d + heightBelow t.children) (reach pending)

theorem reach_append (ps qs : List (Tree τ × Nat)) :
    reach (ps ++ qs) = max (reach ps) (reach qs) := by
  induction ps with
  | nil => exact (Nat.max_eq_right (Nat.zero_le _)).symm
  | cons p ps ih => rw [List.cons_append, reach, reach, ih, Nat.max_assoc]

/-- children come as far down as the highest of them, whatever comes first -/
theorem max_reach_children (ts : List (Tree τ)) (d : Nat) :
    max d (reach (ts.map fun t => (t, d + 1)).reverse) = d + heightBelow ts := by
  induction ts with
  | nil => simp [reach]
  | cons t ts ih =>
    rw [List.map_cons, List.reverse_cons, reach_append, reach, reach, heightBelow_cons, height_eq]
    omega

/-- **The loop for the depth keeps the largest depth** of the nodes visited and of those pending. -/
theorem deepest_eq (best : Nat) (pending : List (Tree τ × Nat)) :
    deepest best pending = max best (reach pending) := by
  fun_induction deepest best pending with
  | case1 best => exact (Nat.max_eq_left (Nat.zero_le _)).symm
  | case2 best t d pending ih =>
    rw [ih, reach_append, reach, ← max_reach_children]
    omega

theorem depth_eq_height (t : Tree τ) : t.depth = t.height := by
  rw [depth, deepest_eq, height_eq]
  simp [reach]

/-- **A tree is one deeper than the deepest of its children.** -/
theorem depth_eq (t : Tree τ) : t.depth = 1 + (t.children.map depth).max?.getD 0 := by
  rw [funext depth_eq_height, height_eq, heightBelow_eq_max?]

/-! ## rendering -/

section
variable [Tag τ]

theorem intercalate_shown (t : Tree τ) (ts : List (Tree τ)) :
    [',', ' '].intercalate ((t :: ts).map (shown escapeChar)) =
      t.shown escapeChar ++ shownAfter escapeChar ts := by
  induction ts generalizing t with
  | nil => simp [List.intercalate]
  | cons u ts ih =>
    rw [List.map_cons, List.intercalate_cons_of_ne_nil (by simp), ih]
    simp

theorem render_leaf (tag : Option τ) (text : String) (span : Span) :
    (leaf tag text span).render = Tag.ofNode tag ++ "(" ++ quote text ++ ")" := by
  apply String.toList_inj.mp
  rw [render_eq]
  simp [quote]

/-- **A branch is rendered by its tag and, in parentheses and with commas, what its children are
rendered by**, if it has any. -/
theorem render_branch (tag : Option τ) (ts : List (Tree τ)) :
    (branch tag ts).render =
      Tag.ofNode tag ++ if ts = [] then "" else "(" ++ ", ".intercalate (ts.map render) ++ ")" := by
  apply String.toList_inj.mp
  cases ts with
  | nil => simp [render_eq]
  | cons t ts =>
    have hchildren : (", ".intercalate ((t :: ts).map render)).toList =
        t.shown escapeChar ++ shownAfter escapeChar ts := by
      rw [String.toList_intercalate, List.map_map, ← intercalate_shown]
      congr 1
      apply List.map_congr_left
      intro u _
      rw [Function.comp_apply, render_eq, String.toList_ofList]
    rw [render_eq, String.toList_ofList, shown_branch, shownBelow_cons, if_neg (by simp)]
    simp only [String.toList_append, hchildren]
    simp

end

end Tree

/-- **The traversals that keep their own stacks do what recursions over the tree do.**  A walk
visits the root and then walks through the children; so it comes to each address of the tree once,
and to all of them in lexicographic order.  The depth is one more than the largest depth of a child,
and one without children.  The rendering is the tag with the quoted text, or with the renderings of
the children, if there are any.  Two trees are the same exactly if they are identical once all spans
are erased, which is an equivalence. -/
theorem traversals_recurse {τ : Type} [Tag τ] [BEq τ] [LawfulBEq τ] :
    (∀ t : Tree τ, t.walk = t :: t.children.flatMap Tree.walk ∧
      t.walk = t.located.map Prod.snd ∧
      (∀ address u, (address, u) ∈ t.located ↔ t.subtree? address = some u) ∧
      (t.located.map Prod.fst).Pairwise (· < ·)) ∧
    (∀ t : Tree τ, t.depth = 1 + (t.children.map Tree.depth).max?.getD 0) ∧
    (∀ (tag : Option τ) (text : String) (span : Span),
      (Tree.leaf tag text span).render = Tag.ofNode tag ++ "(" ++ quote text ++ ")") ∧
    (∀ (tag : Option τ) (ts : List (Tree τ)),
      (Tree.branch tag ts).render = Tag.ofNode tag ++
        if ts = [] then "" else "(" ++ ", ".intercalate (ts.map Tree.render) ++ ")") ∧
    (∀ t u : Tree τ, t.same u = true ↔ t.bare = u.bare) ∧
    Equivalence fun t u : Tree τ => t.same u = true := by
  refine ⟨fun t => ⟨t.walk_eq, t.walk_eq_located, fun _ _ => Tree.mem_located, t.located_sorted⟩,
    Tree.depth_eq, Tree.render_leaf, Tree.render_branch, Tree.same_iff, ?_⟩
  simp only [Tree.same_iff]
  exact ⟨fun _ => rfl, Eq.symm, Eq.trans⟩

namespace Boxes

/-- an array with a number and another array in it -/
def tree (span : Span) : Tree JsonTag :=
  .branch (some .array) [.leaf (some .number) "1" span, .branch (some .array) [.keyword .nullWord]]

/-- the walk ends deep down, and where the number was found does not matter -/
theorem traversals_recurse_of_nest :
    (tree ⟨1, 2⟩).walk[3]? = some (.keyword .nullWord) ∧ (tree ⟨1, 2⟩).depth = 3 ∧
      (tree ⟨1, 2⟩).render = "Array(Number(\"1\"), Array(Null))" ∧
      (tree ⟨1, 2⟩).same (tree ⟨5, 6⟩) = true := by
  obtain ⟨hwalk, hdepth, hleaf, hbranch, hsame, -⟩ := traversals_recurse (τ := JsonTag)
  refine ⟨?_, ?_, ?_, ?_⟩
  · rw [(hwalk _).2.1]
    simp [tree, Tree.keyword, Tree.located_eq, Tree.children]
  · have hlone : (Tree.keyword JsonTag.nullWord).depth = 1 := hdepth _
    have hnumber : (Tree.leaf (some JsonTag.number) "1" ⟨1, 2⟩).depth = 1 := hdepth _
    have harray : (Tree.branch (some JsonTag.array) [.keyword .nullWord]).depth = 2 := by
      rw [hdepth]
      simp [Tree.children, hlone]
    rw [hdepth]
    simp [tree, Tree.children, hnumber, harray]
  · simp only [tree, Tree.keyword, hbranch, hleaf, List.map_cons, List.map_nil]
    decide +kernel
  · rw [hsame]
    simp [tree]

end Boxes

end Packrat
