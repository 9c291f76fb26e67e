import Packrat.Proofs.Likeness
import Packrat.Proofs.Matching

/-!
# Matching up to spans

Where the leaves of a tree were found does not matter here.

* `Grammar.Shows`    a name finds a tree, up to spans;
* `Grammar.Forms`    so does a clause;
* `Grammar.Lists`    so do steps one after the other.
-/

namespace Packrat

namespace Tree
variable {τ : Type}

/-- a tree with a tag shows up in the tree around it as it is, and so do all that are like it -/
theorem spliced_of_bare {t u : Tree τ} (h : t.bare = u.bare) (htag : t.tag.isSome = true) :
    u.spliced = [u] := by
  have hu : u.tag.isSome = true := by
    rw [← ((bare_eq_iff t u).mp h).1]
    exact htag
  cases u with
  | leaf tag text span => rfl
  | branch tag children =>
    cases tag with
    | none => cases hu
    | some tag => rfl

theorem flatMap_spliced_of_bare {ts us : List (Tree τ)} (h : ts.map bare = us.map bare)
    (htags : ∀ t ∈ ts, t.tag.isSome = true) : us.flatMap spliced = us := by
  induction ts generalizing us with
  | nil =>
    obtain rfl : us = [] := List.map_eq_nil_iff.mp h.symm
    rfl
  | cons t ts ih =>
    obtain ⟨u, vs, rfl, hu, hvs⟩ := map_bare_eq_cons h
    obtain ⟨htag, htags⟩ := List.forall_mem_cons.mp htags
    rw [List.flatMap_cons, spliced_of_bare hu htag, ih hvs htags]
    rfl

end Tree

namespace Grammar

section
variable {τ : Type} (grammar : Grammar τ) (ignorables : List Pattern)

/-- from `p` on the name finds the tree up to `q` -/
def Shows (name : String) (p : Place) (t : Tree τ) (q : Place) : Prop :=
  ∃ u, t.bare = u.bare ∧ grammar.Finds ignorables name p (.kept u) q

def Forms (c : Clause τ) (p : Place) (t : Tree τ) (q : Place) : Prop :=
  ∃ u, t.bare = u.bare ∧ grammar.Gives ignorables c p (.kept u) q

def Lists (ss : List (Step τ)) (p : Place) (ts : List (Tree τ)) (q : Place) : Prop :=
  ∃ us, ts.map Tree.bare = us.map Tree.bare ∧ grammar.Runs ignorables ss p us q

end

variable {τ : Type} {grammar : Grammar τ} {ignorables : List Pattern} {name source : String}
  {c : Clause τ} {ss : List (Step τ)} {p q q' : Place} {t : Tree τ} {ts : List (Tree τ)}
  {pattern : Pattern} {m : Match} {tag : τ}

/-! ## steps -/

theorem lists_nil (grammar : Grammar τ) (p : Place) : grammar.Lists ignorables [] p [] p :=
  ⟨[], rfl, grammar.runs_nil p⟩

theorem Shows.lists (h : grammar.Shows ignorables name p t q)
    (h' : grammar.Lists ignorables ss q ts q') :
    grammar.Lists ignorables (.call name :: ss) p (t :: ts) q' := by
  obtain ⟨u, hu, hfound⟩ := h
  obtain ⟨us, hus, hruns⟩ := h'
  refine ⟨u :: us, ?_, hfound.runs hruns⟩
  rw [List.map_cons, List.map_cons, hu, hus]

theorem Shows.breaks (h : grammar.Shows ignorables name p t q)
    (h' : grammar.Breaks ignorables ss q) : grammar.Breaks ignorables (.call name :: ss) p := by
  obtain ⟨u, -, hfound⟩ := h
  exact hfound.breaks h'

theorem lists_hide (hpattern : Pattern.anchored source = .ok pattern)
    (hlook : lookAlong? ignorables pattern p.rest p = some (m, q))
    (h : grammar.Lists ignorables ss q ts q') :
    grammar.Lists ignorables (.leaf source .hide :: ss) p ts q' := by
  obtain ⟨us, hus, hruns⟩ := h
  exact ⟨us, hus, runs_leaf hpattern hlook hruns⟩

theorem lists_capture {text : String} (hpattern : Pattern.anchored source = .ok pattern)
    (hlook : lookAlong? ignorables pattern p.rest p = some (m, q)) (htext : m.captured = text)
    (h : grammar.Lists ignorables ss q ts q') :
    grammar.Lists ignorables (.leaf source (.capture tag) :: ss) p
      (.leaf (some tag) text ⟨0, 0⟩ :: ts) q' := by
  obtain ⟨us, hus, hruns⟩ := h
  have hruns' : grammar.Runs ignorables (.leaf source (.capture tag) :: ss) p
      (.leaf (some tag) m.captured m.span :: us) q' := runs_leaf hpattern hlook hruns
  refine ⟨_, ?_, hruns'⟩
  rw [List.map_cons, List.map_cons, Tree.bare_leaf, Tree.bare_leaf, htext, hus]

/-- the first of several names that matches is found, and those before it have to miss -/
theorem Shows.lists_anyOf (before : List String) {after : List String}
    (hbefore : ∀ name ∈ before, grammar.Misses ignorables name p)
    (h : grammar.Shows ignorables name p t q) :
    grammar.Lists ignorables [.anyOf (before ++ name :: after)] p [t] q := by
  obtain ⟨u, hu, hfound⟩ := h
  refine ⟨[u], ?_, hfound.runs_anyOf before hbefore (grammar.runs_nil q)⟩
  rw [List.map_singleton, List.map_singleton, hu]

/-! ## clauses -/

/-- a clause with a tag: the trees of its steps are the children -/
theorem Lists.forms (h : grammar.Lists ignorables c.steps p ts q)
    (hshape : c.shape = some (.splice (some tag))) (htags : ∀ t ∈ ts, t.tag.isSome = true) :
    grammar.Forms ignorables c p (.branch (some tag) ts) q := by
  obtain ⟨us, hus, hruns⟩ := h
  have hassembly : c.assembly.apply us = .kept (.branch (some tag) us) := by
    rw [Clause.assembly, hshape]
    show Fragment.kept (Tree.branch (some tag) (us.flatMap Tree.spliced)) = _
    rw [Tree.flatMap_spliced_of_bare hus htags]
  have hgives := hruns.gives
  rw [hassembly] at hgives
  refine ⟨_, ?_, hgives⟩
  rw [Tree.bare_branch, Tree.bare_branch, hus]

/-- a clause of one step passes its tree on -/
theorem Lists.forms_single (h : grammar.Lists ignorables c.steps p [t] q)
    (hassembly : c.assembly = .first) : grammar.Forms ignorables c p t q := by
  obtain ⟨us, hus, hruns⟩ := h
  obtain ⟨u, vs, rfl, hu, hvs⟩ := Tree.map_bare_eq_cons hus
  have hgives := hruns.gives
  rw [hassembly] at hgives
  exact ⟨u, hu, hgives⟩

theorem shows_of_forms (before : List (Clause τ)) {after : List (Clause τ)} {name' : String}
    (hrule : grammar.rule? name = some ⟨name', before ++ c :: after⟩)
    (hbefore : ∀ c ∈ before, grammar.Fails ignorables c p)
    (h : grammar.Forms ignorables c p t q) : grammar.Shows ignorables name p t q := by
  obtain ⟨u, hu, hgives⟩ := h
  exact ⟨u, hu, finds_of_gives before hrule hbefore hgives⟩

end Grammar

end Packrat
