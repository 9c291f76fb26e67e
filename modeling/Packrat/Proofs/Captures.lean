import Packrat.Proofs.Makeup
import Packrat.Tree.Walk

/-!
# Captures are neither lost, doubled nor moved

* `Tree.walk_eq`        a walk visits the root and then the children, one after the other;
* `Capture`             what a leaf of a tree holds, and `Tree.captures` all that the leaves hold, in
                        the order of the walk;
* `Reading.capture?`    what a reading contributes to the captures;
* `Fragment.Sound`      what a parent leaves out is nothing, or a text that was read to be left out;
* `Graph.Carries R`     the captures of a result stand in `R` to those of its parts;
* `Derived.carries`     then they stand in `R` to all that was read;
* `captures_as_read`    the captures in the tree of a rule are those read for it, in order.
-/

namespace Packrat

/-! ## walks -/

namespace Tree
variable {τ β : Type}

theorem foldWalk_append (f : β → Tree τ → β) (acc : β) (ts us : List (Tree τ)) :
    foldWalk f acc (ts ++ us) = foldWalk f (foldWalk f acc ts) us := by
  induction acc, ts using foldWalk.induct (f := f) with
  | case1 acc => rw [List.nil_append, foldWalk]
  | case2 acc t ts ih =>
    have hcons : foldWalk f acc (t :: ts) = foldWalk f (f acc t) (t.children ++ ts) := by
      rw [foldWalk]
    rw [List.append_assoc] at ih
    rw [List.cons_append, foldWalk, ih, hcons]

/-- what was seen before stays as it was -/
theorem foldWalk_cons_append (seen before ts : List (Tree τ)) :
    foldWalk (fun seen u => u :: seen) (seen ++ before) ts =
      foldWalk (fun seen u => u :: seen) seen ts ++ before := by
  induction seen, ts using foldWalk.induct (f := fun seen (u : Tree τ) => u :: seen) with
  | case1 seen => rw [foldWalk, foldWalk]
  | case2 seen t ts ih => rw [foldWalk, foldWalk, ← List.cons_append, ih]

/-- a walk through several trees goes through one after the other -/
theorem reverse_foldWalk (ts : List (Tree τ)) :
    (foldWalk (fun seen u => u :: seen) [] ts).reverse = ts.flatMap walk := by
  induction ts with
  | nil => rw [foldWalk]; rfl
  | cons t ts ih =>
    have hone : t :: ts = [t] ++ ts := rfl
    rw [hone, foldWalk_append, ← List.nil_append (foldWalk _ [] [t]), foldWalk_cons_append,
      List.reverse_append, ih, List.flatMap_append, List.flatMap_singleton]
    rfl

/-- **A walk visits the root, and then the children one after the other.** -/
theorem walk_eq (t : Tree τ) : t.walk = t :: t.children.flatMap walk := by
  have hroot : foldWalk (fun seen u => u :: seen) [] [t] =
      foldWalk (fun seen u => u :: seen) [] t.children ++ [t] := by
    rw [← foldWalk_cons_append, foldWalk, List.append_nil, List.nil_append]
  rw [walk, hroot, List.reverse_append, reverse_foldWalk]
  rfl

end Tree

/-! ## captures -/

/-- what a leaf of a tree holds -/
structure Capture (τ : Type) where
  tag : Option τ
  text : String
  span : Span
deriving DecidableEq

/-- what a leaf holds that reads for its text to be kept -/
def Reading.capture? {τ : Type} : Reading τ → Option (Capture τ)
  | ⟨.capture tag, found⟩ => some ⟨some tag, found.captured, found.span⟩
  | _ => none

namespace Tree
variable {τ : Type}

/-- what the root holds, if it is a leaf -/
def capture? : Tree τ → Option (Capture τ)
  | .leaf tag text span => some ⟨tag, text, span⟩
  | .branch _ _ => none

/-- what the leaves hold, in the order of the walk -/
def captures (t : Tree τ) : List (Capture τ) := t.walk.filterMap capture?

theorem filterMap_flatMap_walk (ts : List (Tree τ)) :
    (ts.flatMap walk).filterMap capture? = ts.flatMap captures := List.filterMap_flatMap ..

@[simp] theorem captures_leaf (tag : Option τ) (text : String) (span : Span) :
    (leaf tag text span).captures = [⟨tag, text, span⟩] := by
  rw [captures, walk_eq]
  rfl

@[simp] theorem captures_branch (tag : Option τ) (ts : List (Tree τ)) :
    (branch tag ts).captures = ts.flatMap captures := by
  rw [captures, walk_eq]
  exact filterMap_flatMap_walk ts

/-- grouping nodes hold nothing themselves -/
@[simp] theorem flatMap_captures_spliced (t : Tree τ) :
    t.spliced.flatMap captures = t.captures := by
  cases t with
  | leaf tag text span => simp [spliced]
  | branch tag ts => cases tag <;> simp [spliced]

theorem captures_splice (tag : Option τ) (ts : List (Tree τ)) :
    (branch tag (ts.flatMap spliced)).captures = ts.flatMap captures := by
  rw [captures_branch, List.flatMap_assoc]
  simp

end Tree

/-- what the trees hold that the result contributes to its parent -/
def Fragment.captures {τ : Type} (r : Fragment τ) : List (Capture τ) :=
  r.collected.flatMap Tree.captures

section
variable {τ : Type} {g : Graph τ} {ignorables : List Pattern}

@[simp] theorem Fragment.captures_kept (t : Tree τ) : (Fragment.kept t).captures = t.captures :=
  List.append_nil _

/-! ## what is left out -/

/-- what a clause or a repetition yields is a tree for its parent, or nothing -/
theorem Shape.apply_cases {shape : Shape τ} (h : shape.isPlain = true) (ts : List (Tree τ)) :
    (∃ t, shape.apply ts = .kept t) ∨ shape.apply ts = .nothing := by
  cases shape with
  | first =>
    cases ts with
    | nil => exact .inr rfl
    | cons t ts => exact .inl ⟨t, rfl⟩
  | splice tag => exact .inl ⟨_, rfl⟩
  | all tag => exact .inl ⟨_, rfl⟩
  | custom f => cases h

/-- an ordered choice makes a tree of a tree, and passes on what is left out -/
theorem Shape.applyOne_cases {shape : Shape τ} (h : shape.isPlain = true) (r : Fragment τ) :
    (∃ t, shape.applyOne r = .kept t) ∨ shape.applyOne r = r := by
  cases shape with
  | first => exact .inr rfl
  | splice tag =>
    cases r with
    | kept t => exact .inl ⟨_, rfl⟩
    | elided t => exact .inr rfl
  | all tag =>
    cases r with
    | kept t => exact .inl ⟨_, rfl⟩
    | elided t => exact .inr rfl
  | custom f => cases h

/-- a result is a tree for its parent, nothing, or a text that was read to be left out -/
def Fragment.Sound (readings : List (Reading τ)) (r : Fragment τ) : Prop :=
  (∃ t, r = .kept t) ∨ r = .nothing ∨ ∃ found, ⟨.hide, found⟩ ∈ readings ∧ r = Role.hide.apply found

theorem Role.sound_apply {role : Role τ} (h : role.isPlain = true) (found : Match) :
    (role.apply found).Sound [⟨role, found⟩] := by
  cases role with
  | hide => exact .inr (.inr ⟨found, List.mem_cons_self, rfl⟩)
  | keyword tag => exact .inl ⟨_, rfl⟩
  | capture tag => exact .inl ⟨_, rfl⟩
  | custom f => cases h

theorem Fragment.Sound.length_le {readings : List (Reading τ)} {r : Fragment τ}
    (h : r.Sound readings) : r.collected.length ≤ 1 := by
  rcases h with ⟨t, rfl⟩ | rfl | ⟨found, -, rfl⟩
  · exact Nat.le_refl 1
  · exact Nat.zero_le 1
  · exact Nat.zero_le 1

mutual

theorem Derived.sound (hg : g.Plain) {call : Call} {readings : List (Reading τ)} {p q : Place}
    {r : Fragment τ} : Derived g ignorables call readings p q r → r.Sound readings
  | .leaf hnode _ => Role.sound_apply (hg.role hnode rfl) _
  | .sequence hnode _ => (Shape.apply_cases (hg.shape hnode rfl) _).imp_right .inl
  | .repetition hnode _ _ => (Shape.apply_cases (hg.shape hnode rfl) _).imp_right .inl
  | .alternative hnode _ h => by
    rcases Shape.applyOne_cases (hg.shape hnode rfl) _ with hkept | hpassed
    · exact .inl hkept
    · rw [hpassed]
      exact h.sound hg
  | .optional _ h => h.sound hg
  | .nothing _ => .inr (.inl rfl)
  | .reference _ h => h.sound hg
  | .rule _ h => h.sound hg

/-- each part of a sequence contributes at most one tree -/
theorem Gathered.length_le (hg : g.Plain) {parts : List Nat} {readings : List (Reading τ)}
    {p q : Place} {trees : List (Tree τ)} : Gathered g ignorables parts readings p q trees →
    trees.length ≤ parts.length
  | .nil => Nat.le_refl 0
  | .snoc hparts hpart => by
    have hmore := (hpart.sound hg).length_le
    have hbefore := hparts.length_le hg
    rw [List.length_append, List.length_append, List.length_singleton]
    omega

end

/-! ## what is kept -/

theorem Role.captures_apply {role : Role τ} (h : role.isPlain = true) (found : Match) :
    (role.apply found).captures = [(⟨role, found⟩ : Reading τ)].filterMap Reading.capture? := by
  cases role with
  | hide => rfl
  | keyword tag => exact (Fragment.captures_kept _).trans (Tree.captures_branch _ _)
  | capture tag => exact (Fragment.captures_kept _).trans (Tree.captures_leaf _ _ _)
  | custom f => cases h

theorem Shape.captures_applyOne {shape : Shape τ} (h : shape.isPlain = true) (r : Fragment τ) :
    (shape.applyOne r).captures = r.captures := by
  cases shape with
  | first => rfl
  | splice tag =>
    cases r with
    | kept t => simp [applyOne, apply]
    | elided t => rfl
  | all tag =>
    cases r with
    | kept t => simp [applyOne, apply]
    | elided t => rfl
  | custom f => cases h

/-- a branch holds what its children hold -/
theorem Shape.captures_apply {shape : Shape τ} (h : shape.isPlain = true)
    (hfirst : shape.isFirst = false) (ts : List (Tree τ)) :
    (shape.apply ts).captures = ts.flatMap Tree.captures := by
  cases shape with
  | first => cases hfirst
  | splice tag => exact (Fragment.captures_kept _).trans (Tree.captures_splice _ _)
  | all tag => exact (Fragment.captures_kept _).trans (Tree.captures_branch _ _)
  | custom f => cases h

/-- the captures of a result stand in the relation to those of the parts, for sequences and for
repetitions -/
structure Graph.Carries (g : Graph τ) (R : List (Capture τ) → List (Capture τ) → Prop) : Prop where
  refl : ∀ s, R s s
  trans : ∀ {s t u}, R s t → R t u → R s u
  append : ∀ {s s' t t'}, R s s' → R t t' → R (s ++ t) (s' ++ t')
  sequence : ∀ {n : Nat} {parts : List Nat} {shape : Shape τ} {trees : List (Tree τ)},
    g.nodes[n]? = some (.sequence parts shape) → trees.length ≤ parts.length →
    R (shape.apply trees).captures (trees.flatMap Tree.captures)
  repetition : ∀ {n inner : Nat} {bound : Bound} {shape : Shape τ} {trees : List (Tree τ)},
    g.nodes[n]? = some (.repetition inner bound shape) →
    R (shape.apply trees).captures (trees.flatMap Tree.captures)

section
variable {R : List (Capture τ) → List (Capture τ) → Prop}

mutual

/-- **The captures of a result stand in the relation to all that was read for it.** -/
theorem Derived.carries (hg : g.Plain) (hR : g.Carries R) {call : Call}
    {readings : List (Reading τ)} {p q : Place} {r : Fragment τ} :
    Derived g ignorables call readings p q r →
    R r.captures (readings.filterMap Reading.capture?)
  | .leaf hnode _ => by
    rw [Role.captures_apply (hg.role hnode rfl)]
    exact hR.refl _
  | .sequence hnode h => hR.trans (hR.sequence hnode (h.length_le hg)) (h.carries hg hR)
  | .repetition hnode h _ => hR.trans (hR.repetition hnode) (h.carries hg hR)
  | .alternative hnode _ h => by
    rw [Shape.captures_applyOne (hg.shape hnode rfl)]
    exact h.carries hg hR
  | .optional _ h => h.carries hg hR
  | .nothing _ => hR.refl []
  | .reference _ h => h.carries hg hR
  | .rule _ h => h.carries hg hR

theorem Gathered.carries (hg : g.Plain) (hR : g.Carries R) {parts : List Nat}
    {readings : List (Reading τ)} {p q : Place} {trees : List (Tree τ)} :
    Gathered g ignorables parts readings p q trees →
    R (trees.flatMap Tree.captures) (readings.filterMap Reading.capture?)
  | .nil => hR.refl []
  | .snoc hparts hpart => by
    rw [List.flatMap_append, List.filterMap_append]
    exact hR.append (hparts.carries hg hR) (hpart.carries hg hR)

end

end

/-- whatever the first tree is taken of, nothing is doubled or moved -/
theorem Shape.captures_apply_sublist {shape : Shape τ} (h : shape.isPlain = true)
    (ts : List (Tree τ)) : (shape.apply ts).captures.Sublist (ts.flatMap Tree.captures) := by
  cases hfirst : shape.isFirst with
  | false =>
    rw [captures_apply h hfirst]
  | true =>
    cases shape with
    | first =>
      cases ts with
      | nil => exact List.nil_sublist _
      | cons t ts =>
        rw [apply, Fragment.captures_kept]
        exact List.sublist_append_left _ _
    | _ => cases hfirst

theorem Graph.Plain.carries_sublist (hg : g.Plain) : g.Carries List.Sublist where
  refl := List.Sublist.refl
  trans := List.Sublist.trans
  append := List.Sublist.append
  sequence hnode _ := Shape.captures_apply_sublist (hg.shape hnode rfl) _
  repetition hnode := Shape.captures_apply_sublist (hg.shape hnode rfl) _

/-- nothing is lost if the first tree is taken only where there is no other -/
theorem Graph.Plain.carries_eq (hg : g.Plain) (hfirst : g.FirstAlone) : g.Carries Eq where
  refl _ := rfl
  trans := Eq.trans
  append hs ht := by rw [hs, ht]
  sequence {n parts shape trees} hnode hlength := by
    cases hshape : shape.isFirst with
    | false => exact Shape.captures_apply (hg.shape hnode rfl) hshape trees
    | true =>
      cases shape with
      | first =>
        -- a single part has at most one tree, so none comes after the first
        have hone := hfirst.sequence hnode
        match trees, hlength with
        | [], _ => rfl
        | [t], _ => simp [Shape.apply]
        | t :: u :: ts, hlength =>
          rw [List.length_cons, List.length_cons] at hlength
          omega
      | _ => cases hshape
  repetition {n inner bound shape trees} hnode := by
    refine Shape.captures_apply (hg.shape hnode rfl) ?_ trees
    cases shape with
    | first => exact absurd hnode hfirst.repetition
    | _ => rfl

/-! ## rules -/

/-- what a rule yields holds what it contributes to its parent -/
theorem Shape.captures_tree_apply {shape : Shape τ} (h : shape.isPlain = true)
    (ts : List (Tree τ)) : (shape.apply ts).tree.captures = (shape.apply ts).captures := by
  rcases apply_cases h ts with ⟨t, ht⟩ | hnothing
  · rw [ht, Fragment.captures_kept]
    rfl
  · rw [hnothing]
    exact Tree.captures_branch none []

theorem Derived.captures_tree {grammar : Grammar τ} (hplain : grammar.plain = true) {rule : Nat}
    {readings : List (Reading τ)} {p q : Place} {r : Fragment τ}
    (h : Derived grammar.compile ignorables (.rule rule) readings p q r) :
    r.tree.captures = r.captures := by
  obtain ⟨c, hc, trees, rfl⟩ := h.rule_inv
  refine Shape.captures_tree_apply ?_ trees
  have hshapes := List.all_eq_true.mp (Bool.and_eq_true_iff.mp hplain).1
  exact hshapes c.result (List.mem_flatMap.mpr ⟨c, hc, List.mem_cons_self⟩)

/-- **Captures are neither lost, doubled nor moved.**  When a rule matches, with a memory or without
one and after any other requests, its match has a derivation over the texts that the journal holds for
it, and the captures in its tree, in the order of the walk, are among those read there, in the same
order.  They are all of them if only clauses of one step yield their first tree. -/
theorem captures_as_read (grammar : Grammar τ) (hplain : grammar.plain = true)
    (ignorables : List Pattern) (reader : Reader) (memoize : Bool) {limit : Nat} {calls : List Call}
    {replies : List (Reply τ)} {m : Machine τ}
    (hsession : (Machine.fresh reader memoize).session? grammar.compile ignorables limit calls =
      some (replies, m)) {rule : Nat} {r : Fragment τ} {m' : Machine τ}
    (hrule : m.evaluateRule? grammar.compile ignorables limit rule = some (some r, m')) :
    ∃ j, (Machine.fresh reader memoize).journal? grammar.compile ignorables limit {}
        (calls ++ [.rule rule]) = some (m', j) ∧
      Derived grammar.compile ignorables (.rule rule) j.latest m.reader.place m'.reader.place r ∧
      r.tree.captures.Sublist (j.latest.filterMap Reading.capture?) ∧
      (grammar.firstAlone = true → r.tree.captures = j.latest.filterMap Reading.capture?) := by
  have hserve : m.serve? grammar.compile ignorables limit (.rule rule) = some (some r, m') := hrule
  obtain ⟨j, hj, -, hderived⟩ := Machine.derived_of_serve? hsession hserve
  have hg := Grammar.compile_plain hplain
  refine ⟨j, hj, hderived, ?_, fun hfirst => ?_⟩
  · rw [hderived.captures_tree hplain]
    exact hderived.carries hg hg.carries_sublist
  · rw [hderived.captures_tree hplain]
    exact hderived.carries hg (hg.carries_eq (Grammar.compile_firstAlone hfirst))

end

/-! ## a list that is read twice -/

namespace Listing

/-- `list ::= items ";" | items "."`, `items ::= item more*`, `more ::= "," item`, where an item is a
word -/
def grammar : Grammar Unit :=
  (((Grammar.empty.declare
    (({ name := "list" } : Rule.Draft Unit).call "items" |>.hide ";" |>.or |>.call "items"
      |>.hide "[.]")).declare
    (({ name := "items" } : Rule.Draft Unit).call "item" |>.many "more" |>.tag ())).declare
    (({ name := "more" } : Rule.Draft Unit).hide "," |>.call "item")).declare
    (({ name := "item" } : Rule.Draft Unit).capture "[a-z]+" ())

/-- a machine with a memory at the beginning of the text `ab,c.` -/
def machine : Machine Unit := .fresh (Reader.first "ab,c.".toList) true

/-- the items are read for the first choice, given up, and found again in the memory; each of them is
in the tree once -/
theorem captures_as_read_once :
    ∃ r m j, machine.evaluateRule? grammar.compile [] 100 0 = some (some r, m) ∧
      m.counters.memoHits = 1 ∧ machine.journal? grammar.compile [] 100 {} [.rule 0] = some (m, j) ∧
      r.tree.captures = [⟨some (), "ab", ⟨0, 2⟩⟩, ⟨some (), "c", ⟨3, 4⟩⟩] ∧
      r.tree.captures = j.latest.filterMap Reading.capture? := by
  have hplain : grammar.plain = true := by decide +kernel
  have hfirst : grammar.firstAlone = true := by decide +kernel
  have hview : (machine.evaluateRule? grammar.compile [] 100 0).map (fun x =>
      (x.1.map (·.tree.captures), x.2.counters.memoHits)) =
        some (some [⟨some (), "ab", ⟨0, 2⟩⟩, ⟨some (), "c", ⟨3, 4⟩⟩], 1) := by
    decide +kernel
  obtain ⟨⟨result, m⟩, hm, hview⟩ := Option.map_eq_some_iff.mp hview
  obtain ⟨hresult, hhits⟩ := Prod.mk.inj hview
  obtain ⟨r, rfl, hcaptures⟩ := Option.map_eq_some_iff.mp hresult
  have hsession : machine.session? grammar.compile [] 100 [] = some ([], machine) := rfl
  obtain ⟨j, hj, -, -, hall⟩ :=
    captures_as_read grammar hplain [] (Reader.first "ab,c.".toList) true hsession hm
  exact ⟨r, m, j, hm, hhits, hj, hcaptures, hall hfirst⟩

end Listing

end Packrat
