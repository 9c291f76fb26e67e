import Packrat.Language.Arithmetic
import Packrat.Language.Assembly
import Packrat.Language.Json
import Packrat.Parse
import Packrat.Proofs.Captures

/-!
# Grouping nodes stay at the root

A branch looks through the grouping nodes among its children, but one level deep only.  That is enough,
since no grouping node is ever found deeper.

* `Tree.Typed`          every node has a tag;
* `Tree.Flat`           what the tree contributes to a branch around it is typed;
* `Derived.flat`        the trees of all results are flat;
* `Derived.typed_children`   so every node below the root of a result has a tag;
* `groups_at_root`      for all requests, and for all texts that are parsed.
-/

namespace Packrat

namespace Tree
variable {τ : Type}

/-- every node has a tag -/
def Typed (t : Tree τ) : Prop := ∀ u ∈ t.walk, u.tag.isSome = true

/-- what the tree contributes to a branch that looks through grouping nodes is typed -/
def Flat (t : Tree τ) : Prop := ∀ c ∈ t.spliced, c.Typed

theorem typed_iff {t : Tree τ} : t.Typed ↔ t.tag.isSome = true ∧ ∀ c ∈ t.children, c.Typed := by
  rw [Typed, walk_eq, List.forall_mem_cons]
  refine and_congr_right fun _ => ⟨fun h c hc u hu => ?_, fun h u hu => ?_⟩
  · exact h u (List.mem_flatMap.mpr ⟨c, hc, hu⟩)
  · obtain ⟨c, hc, hu⟩ := List.mem_flatMap.mp hu
    exact h c hc u hu

/-- a node with a tag and without children is flat -/
theorem flat_of_childless {t : Tree τ} (htag : t.tag.isSome = true) (hchildren : t.children = []) :
    t.Flat := by
  have htyped : t.Typed := by
    refine typed_iff.mpr ⟨htag, fun c hc => ?_⟩
    rw [hchildren] at hc
    cases hc
  have hspliced : t.spliced = [t] := by
    cases t with
    | leaf tag text span => rfl
    | branch tag ts =>
      cases tag with
      | none => cases htag
      | some tag => rfl
  intro c hc
  rw [hspliced] at hc
  rw [List.mem_singleton.mp hc]
  exact htyped

/-- **A branch over what flat trees contribute is flat.** -/
theorem flat_splice (tag : Option τ) {ts : List (Tree τ)} (h : ∀ t ∈ ts, t.Flat) :
    (branch tag (ts.flatMap spliced)).Flat := by
  have htyped : ∀ c ∈ ts.flatMap spliced, c.Typed := by
    intro c hc
    obtain ⟨t, ht, hc⟩ := List.mem_flatMap.mp hc
    exact h t ht c hc
  cases tag with
  | none => exact htyped
  | some tag =>
    intro c hc
    rw [List.mem_singleton.mp hc]
    exact typed_iff.mpr ⟨rfl, htyped⟩

theorem Flat.typed_children {t : Tree τ} (h : t.Flat) : ∀ c ∈ t.children, c.Typed := by
  cases t with
  | leaf tag text span =>
    intro c hc
    cases hc
  | branch tag ts =>
    cases tag with
    | none => exact h
    | some tag => exact (typed_iff.mp (h _ List.mem_cons_self)).2

/-- a walk leaves the root for the children -/
theorem forall_mem_walk_tail {t : Tree τ} (h : ∀ c ∈ t.children, c.Typed) :
    ∀ u ∈ t.walk.tail, u.tag.isSome = true := by
  intro u hu
  rw [walk_eq] at hu
  obtain ⟨c, hc, hu⟩ := List.mem_flatMap.mp hu
  exact h c hc u hu

end Tree

section
variable {τ : Type} {g : Graph τ} {ignorables : List Pattern}

theorem Role.flat_apply {role : Role τ} (h : role.isPlain = true) (found : Match) :
    ∀ t ∈ (role.apply found).collected, t.Flat := by
  intro t ht
  cases role with
  | hide => cases ht
  | keyword tag =>
    rw [List.mem_singleton.mp ht]
    exact Tree.flat_of_childless rfl rfl
  | capture tag =>
    rw [List.mem_singleton.mp ht]
    exact Tree.flat_of_childless rfl rfl
  | custom f => cases h

theorem Shape.flat_apply {shape : Shape τ} (h : shape.isFlat = true) {ts : List (Tree τ)}
    (hts : ∀ t ∈ ts, t.Flat) : ∀ t ∈ (shape.apply ts).collected, t.Flat := by
  cases shape with
  | first =>
    cases ts with
    | nil =>
      intro t ht
      cases ht
    | cons u us =>
      intro t ht
      rw [List.mem_singleton.mp ht]
      exact hts u List.mem_cons_self
  | splice tag =>
    intro t ht
    rw [List.mem_singleton.mp ht]
    exact Tree.flat_splice tag hts
  | all tag => cases h
  | custom f => cases h

theorem Shape.flat_applyOne {shape : Shape τ} (h : shape.isFlat = true) {r : Fragment τ}
    (hr : ∀ t ∈ r.collected, t.Flat) : ∀ t ∈ (shape.applyOne r).collected, t.Flat := by
  cases shape with
  | first => exact hr
  | splice tag =>
    cases r with
    | kept t =>
      have hsplice : (Shape.splice tag).isFlat = true := rfl
      exact flat_apply hsplice hr
    | elided t => exact hr
  | all tag => cases h
  | custom f => cases h

mutual

/-- **The trees of all results are flat.** -/
theorem Derived.flat (hg : g.Plain) (hflat : g.Shapes Shape.isFlat) {call : Call}
    {readings : List (Reading τ)} {p q : Place} {r : Fragment τ} :
    Derived g ignorables call readings p q r → ∀ t ∈ r.collected, t.Flat
  | .leaf hnode _ => Role.flat_apply (hg.role hnode rfl) _
  | .sequence hnode h => Shape.flat_apply (hflat hnode rfl) (h.flat hg hflat)
  | .repetition hnode h _ => Shape.flat_apply (hflat hnode rfl) (h.flat hg hflat)
  | .alternative hnode _ h => Shape.flat_applyOne (hflat hnode rfl) (h.flat hg hflat)
  | .optional _ h => h.flat hg hflat
  | .nothing _ => fun _ ht => nomatch ht
  | .reference _ h => h.flat hg hflat
  | .rule _ h => h.flat hg hflat

theorem Gathered.flat (hg : g.Plain) (hflat : g.Shapes Shape.isFlat) {parts : List Nat}
    {readings : List (Reading τ)} {p q : Place} {trees : List (Tree τ)} :
    Gathered g ignorables parts readings p q trees → ∀ t ∈ trees, t.Flat
  | .nil => fun _ ht => nomatch ht
  | .snoc hparts hpart => fun t ht => by
    rcases List.mem_append.mp ht with ht | ht
    · exact hparts.flat hg hflat t ht
    · exact hpart.flat hg hflat t ht

end

/-- what is left out has no children, and all others are flat -/
theorem Derived.typed_children (hg : g.Plain) (hflat : g.Shapes Shape.isFlat) {call : Call}
    {readings : List (Reading τ)} {p q : Place} {r : Fragment τ}
    (h : Derived g ignorables call readings p q r) : ∀ c ∈ r.tree.children, c.Typed := by
  -- that the trees are flat says nothing of one that is left out: it contributes none
  rcases h.sound hg with ⟨t, rfl⟩ | rfl | ⟨found, -, rfl⟩
  · exact (h.flat hg hflat t List.mem_cons_self).typed_children
  · intro c hc
    cases hc
  · intro c hc
    cases hc

/-- a text that is parsed has the tree that its rule yields -/
theorem Graph.evaluateRule?_of_run? {limit rule : Nat} {text : String} {options : Options}
    {o : Outcome τ} {t : Tree τ} (h : g.run? limit rule text options = some o)
    (ht : o.result = .ok t) :
    ∃ r m, (Machine.first text.toList options.memoize).evaluateRule? g (g.ignorablesFor options)
      limit rule = some (some r, m) ∧ t = r.tree := by
  rw [run?] at h
  split at h
  · cases h
  · next result m hm =>
    cases h
    cases result with
    | none => cases ht
    | some r =>
      rw [resultOf] at ht
      split at ht
      · cases ht
      · cases ht
        exact ⟨r, m, hm, rfl⟩

/-- **Grouping nodes stay at the root.**  If no shape and no role of a grammar is a function of its own,
and no shape keeps grouping nodes as they are, then in the tree of every match every node below the root
has a tag: for all requests, with a memory or without one and after any others, and for all texts that
are parsed. -/
theorem groups_at_root (grammar : Grammar τ) (hflat : grammar.flat = true) :
    (∀ (ignorables : List Pattern) (reader : Reader) (memoize : Bool) (limit : Nat)
        (calls : List Call) (replies : List (Reply τ)) (m : Machine τ),
      (Machine.fresh reader memoize).session? grammar.compile ignorables limit calls =
        some (replies, m) →
      ∀ call r m', m.serve? grammar.compile ignorables limit call = some (some r, m') →
        ∀ u ∈ r.tree.walk.tail, u.tag.isSome = true) ∧
    ∀ limit rule text options o t, grammar.compile.run? limit rule text options = some o →
      o.result = .ok t → ∀ u ∈ t.walk.tail, u.tag.isSome = true := by
  have hg := Grammar.compile_plain (Grammar.plain_of_flat hflat)
  have hshapes := Grammar.compile_flat hflat
  constructor
  · intro ignorables reader memoize limit calls replies m hsession call r m' hserve
    obtain ⟨j, -, -, hderived⟩ := Machine.derived_of_serve? hsession hserve
    exact Tree.forall_mem_walk_tail (hderived.typed_children hg hshapes)
  · intro limit rule text options o t hrun ht
    obtain ⟨r, m, hm, rfl⟩ := Graph.evaluateRule?_of_run? hrun ht
    have hsession : (Machine.fresh (Reader.first text.toList) options.memoize).session?
        grammar.compile (grammar.compile.ignorablesFor options) limit [] = some ([], _) := rfl
    have hserve : (Machine.fresh (Reader.first text.toList) options.memoize).serve? grammar.compile
        (grammar.compile.ignorablesFor options) limit (.rule rule) = some (some r, m) := hm
    obtain ⟨j, -, -, hderived⟩ := Machine.derived_of_serve? hsession hserve
    exact Tree.forall_mem_walk_tail (hderived.typed_children hg hshapes)

end

example : Arithmetic.grammar.flat = true ∧ JsonTag.grammar.flat = true ∧
    AssemblyTag.grammar.flat = true := by decide +kernel

/-- the steps of the rules for lists are grouped, and only the root of the tree shows it -/
theorem groups_at_root_of_listing :
    ∃ o t, Listing.grammar.compile.run? 100 0 "ab,c." {} = some o ∧ o.result = .ok t ∧
      t.tag = none ∧ t.walk.length = 4 ∧ ∀ u ∈ t.walk.tail, u.tag.isSome = true := by
  have hflat : Listing.grammar.flat = true := by decide +kernel
  have hview : (Listing.grammar.compile.run? 100 0 "ab,c." {}).map (fun o =>
      o.result.toOption.map fun t => (t.tag, t.walk.length)) = some (some (none, 4)) := by
    decide +kernel
  obtain ⟨o, ho, hview⟩ := Option.map_eq_some_iff.mp hview
  obtain ⟨t, ht, hview⟩ := Option.map_eq_some_iff.mp hview
  obtain ⟨htag, hlength⟩ := Prod.mk.inj hview
  have hresult : o.result = .ok t := by
    cases hr : o.result with
    | error e =>
      rw [hr] at ht
      cases ht
    | ok u =>
      rw [hr] at ht
      cases ht
      rfl
  exact ⟨o, t, ho, hresult, htag, hlength,
    (groups_at_root Listing.grammar hflat).2 100 0 "ab,c." {} o t ho hresult⟩

end Packrat
