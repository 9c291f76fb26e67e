import Packrat.Proofs.Compiled
import Packrat.Proofs.Evidence
import Packrat.Proofs.Foresight

/-!
# What the graph of a grammar is made of

* `Grammar.clauses`, `Grammar.shapes`, `Grammar.roles`   what stands in the rules that count;
* `Grammar.plain`       no shape and no role is a function of its own;
* `Grammar.flat`        nor does any shape keep grouping nodes as they are;
* `Grammar.firstAlone`  only clauses of a single step yield their first tree;
* `Grammar.Makes`       a node as it may stand in the graph of the grammar;
* `Grammar.makes_of_getElem?`   every node of the graph is one;
* `Graph.Shapes`, `Graph.Plain`   the same tests, said of the nodes of any graph;
* `Derived.stands_inv`  what a rule of the grammar yields.
-/

namespace Packrat

/-! ## tests of a grammar -/

section
variable {τ : Type}

namespace Shape

/-- the shape is no function of its own -/
def isPlain : Shape τ → Bool
  | .custom _ => false
  | _ => true

/-- the shape is plain, and looks through grouping nodes if it makes a branch -/
def isFlat : Shape τ → Bool
  | .first => true
  | .splice _ => true
  | _ => false

/-- the shape yields the first tree -/
def isFirst : Shape τ → Bool
  | .first => true
  | _ => false

theorem isPlain_of_isFlat {shape : Shape τ} (h : shape.isFlat = true) : shape.isPlain = true := by
  cases shape with
  | custom f => cases h
  | _ => rfl

end Shape

/-- the role is no function of its own -/
def Role.isPlain : Role τ → Bool
  | .custom _ => false
  | _ => true

/-- the shape of a repetition -/
def Step.shape? : Step τ → Option (Shape τ)
  | .repetition _ _ shape => some shape
  | _ => none

/-- what becomes of the text of a leaf -/
def Step.role? : Step τ → Option (Role τ)
  | .leaf _ role => some role
  | _ => none

namespace Grammar

/-- the clauses of the rules that count -/
def clauses (grammar : Grammar τ) : List (Clause τ) := grammar.definitions.flatMap Rule.clauses

/-- the shapes of their results and of their repetitions -/
def shapes (grammar : Grammar τ) : List (Shape τ) :=
  grammar.clauses.flatMap fun c => c.result :: c.steps.filterMap Step.shape?

/-- the roles of their leaves -/
def roles (grammar : Grammar τ) : List (Role τ) :=
  grammar.clauses.flatMap fun c => c.steps.filterMap Step.role?

/-- no shape and no role is a function of its own -/
def plain (grammar : Grammar τ) : Bool :=
  grammar.shapes.all Shape.isPlain && grammar.roles.all Role.isPlain

/-- nor does any shape keep grouping nodes as they are -/
def flat (grammar : Grammar τ) : Bool :=
  grammar.shapes.all Shape.isFlat && grammar.roles.all Role.isPlain

/-- the first tree is the result of clauses of exactly one step only, and of no repetition -/
def firstAlone (grammar : Grammar τ) : Bool :=
  grammar.clauses.all fun c => (!c.result.isFirst || c.steps.length == 1) &&
    (c.steps.filterMap Step.shape?).all (!·.isFirst)

end Grammar

end

/-! ## the nodes of a graph -/

section
variable {τ β : Type}

/-- a node as it may stand in the graph of the grammar -/
inductive Grammar.Makes (grammar : Grammar τ) : Node τ → Prop
  | sequence {c : Clause τ} {parts : List Nat} : c ∈ grammar.clauses →
      parts.length = c.steps.length → Makes grammar (.sequence parts c.result)
  /-- of several rules, the first that matches -/
  | alternative {choices : List Nat} : Makes grammar (.alternative choices .first)
  | repetition {c : Clause τ} {name : String} {bound : Bound} {shape : Shape τ} {inner : Nat} :
      c ∈ grammar.clauses → .repetition name bound shape ∈ c.steps →
      Makes grammar (.repetition inner bound shape)
  | optional {inner : Nat} : Makes grammar (.optional inner)
  | leaf {c : Clause τ} {source : String} {role : Role τ} {pattern : Option Pattern} :
      c ∈ grammar.clauses → .leaf source role ∈ c.steps → Makes grammar (.leaf source pattern role)
  | reference {name : String} {rule : Option Nat} : Makes grammar (.reference name rule)

variable {nodes : Nat → β → List (Node τ)}

/-- each node of blocks in a row belongs to one of them -/
theorem mem_layOut {node : Node τ} {base : Nat} {bs : List β}
    (h : node ∈ (layOut nodes base bs).1) : ∃ b ∈ bs, ∃ base, node ∈ nodes base b := by
  induction bs generalizing base with
  | nil => cases h
  | cons b bs ih =>
    rcases List.mem_append.mp h with hhere | hmore
    · exact ⟨b, List.mem_cons_self, base, hhere⟩
    · obtain ⟨b', hb', hnode⟩ := ih hmore
      exact ⟨b', List.mem_cons_of_mem _ hb', hnode⟩

theorem length_layOut_snd (base : Nat) (bs : List β) :
    (layOut nodes base bs).2.length = bs.length := by
  induction bs generalizing base with
  | nil => rfl
  | cons b bs ih => exact congrArg (· + 1) (ih _)

variable {grammar : Grammar τ} {index : String → Option Nat} {node : Node τ} {base : Nat}

theorem Step.makes_of_mem {c : Clause τ} (hc : c ∈ grammar.clauses) {s : Step τ}
    (hs : s ∈ c.steps) (h : node ∈ s.nodes index base) : grammar.Makes node := by
  cases s with
  | leaf source role =>
    cases List.mem_singleton.mp h
    exact .leaf hc hs
  | call name =>
    cases List.mem_singleton.mp h
    exact .reference
  | repetition name bound shape =>
    rcases List.mem_cons.mp h with rfl | h
    · exact .reference
    · cases List.mem_singleton.mp h
      exact .repetition hc hs
  | maybe name =>
    rcases List.mem_cons.mp h with rfl | h
    · exact .reference
    · cases List.mem_singleton.mp h
      exact .optional
  | anyOf names =>
    rcases List.mem_append.mp h with h | h
    · obtain ⟨name, -, rfl⟩ := List.mem_map.mp h
      exact .reference
    · cases List.mem_singleton.mp h
      exact .alternative

theorem Clause.makes_of_mem {c : Clause τ} (hc : c ∈ grammar.clauses)
    (h : node ∈ c.nodes index base) : grammar.Makes node := by
  rcases List.mem_append.mp h with h | h
  · obtain ⟨s, hs, base, hnode⟩ := mem_layOut h
    exact Step.makes_of_mem hc hs hnode
  · cases List.mem_singleton.mp h
    exact .sequence hc (length_layOut_snd _ _)

theorem Rule.makes_of_mem {rule : Rule τ} (hrule : rule ∈ grammar.definitions)
    (h : node ∈ rule.nodes index base) : grammar.Makes node := by
  have hclause : ∀ c ∈ rule.clauses, c ∈ grammar.clauses := fun c hc =>
    List.mem_flatMap.mpr ⟨rule, hrule, hc⟩
  rcases Rule.nodes_eq index base rule with ⟨c, hclauses, hnodes⟩ | hnodes
  · rw [hnodes] at h
    exact Clause.makes_of_mem (hclause c (by rw [hclauses]; exact List.mem_cons_self)) h
  · rw [hnodes] at h
    rcases List.mem_append.mp h with h | h
    · obtain ⟨c, hc, base, hnode⟩ := mem_layOut h
      exact Clause.makes_of_mem (hclause c hc) hnode
    · cases List.mem_singleton.mp h
      exact .alternative

namespace Grammar

/-- **Every node of the graph is made for a clause or a step of the grammar.** -/
theorem makes_of_getElem? {n : Nat} (h : grammar.compile.nodes[n]? = some node) :
    grammar.Makes node := by
  have hmem : node ∈ grammar.nodes.1 := List.mem_of_getElem? ((List.getElem?_toArray ..).symm.trans h)
  obtain ⟨rule, hrule, base, hnode⟩ := mem_layOut hmem
  exact Rule.makes_of_mem hrule hnode

/-- the parser of a rule stands for a rule that counts -/
theorem stands_of_root? {i root : Nat} (h : grammar.compile.root? i = some root) :
    ∃ rule : Rule τ, rule ∈ grammar.definitions ∧ rule.Stands grammar.compile root := by
  rw [grammar.compile_root?] at h
  obtain ⟨hi, rfl⟩ := List.getElem?_eq_some_iff.mp h
  obtain ⟨hlength, hends⟩ := List.forall₂_iff_get.mp grammar.ends_roots
  have hi' : i < grammar.definitions.length := hlength ▸ hi
  exact ⟨grammar.definitions[i], List.getElem_mem hi',
    Rule.stands_of_ends grammar.compile_ruleIndex? (hends i hi' hi)⟩

end Grammar

/-! ## shapes and roles -/

/-- the shape of what a parser yields -/
def Node.shape? : Node τ → Option (Shape τ)
  | .sequence _ shape => some shape
  | .alternative _ shape => some shape
  | .repetition _ _ shape => some shape
  | _ => none

/-- what becomes of the text of a leaf -/
def Node.role? : Node τ → Option (Role τ)
  | .leaf _ _ role => some role
  | _ => none

namespace Grammar

theorem Makes.shape (h : grammar.Makes node) {shape : Shape τ} (hshape : node.shape? = some shape) :
    shape = .first ∨ shape ∈ grammar.shapes := by
  cases h with
  | @sequence c parts hc hlength =>
    cases hshape
    exact .inr (List.mem_flatMap.mpr ⟨c, hc, List.mem_cons_self⟩)
  | alternative =>
    cases hshape
    exact .inl rfl
  | @repetition c name bound shape inner hc hs =>
    cases hshape
    exact .inr (List.mem_flatMap.mpr
      ⟨c, hc, List.mem_cons_of_mem _ (List.mem_filterMap.mpr ⟨_, hs, rfl⟩)⟩)
  | optional => cases hshape
  | leaf _ _ => cases hshape
  | reference => cases hshape

theorem Makes.role (h : grammar.Makes node) {role : Role τ} (hrole : node.role? = some role) :
    role ∈ grammar.roles := by
  cases h with
  | @leaf c source role pattern hc hs =>
    cases hrole
    exact List.mem_flatMap.mpr ⟨c, hc, List.mem_filterMap.mpr ⟨_, hs, rfl⟩⟩
  | sequence _ _ => cases hrole
  | alternative => cases hrole
  | repetition _ _ => cases hrole
  | optional => cases hrole
  | reference => cases hrole

end Grammar

namespace Graph

/-- all shapes in the graph pass the test -/
def Shapes (g : Graph τ) (ok : Shape τ → Bool) : Prop :=
  ∀ ⦃n : Nat⦄ ⦃node : Node τ⦄ ⦃shape : Shape τ⦄, g.nodes[n]? = some node →
    node.shape? = some shape → ok shape = true

/-- no shape and no role in the graph is a function of its own -/
structure Plain (g : Graph τ) : Prop where
  shape : g.Shapes Shape.isPlain
  role : ∀ {n : Nat} {node : Node τ} {role : Role τ}, g.nodes[n]? = some node →
    node.role? = some role → role.isPlain = true

/-- the first tree is the result of sequences of at most one part only, and of no repetition -/
structure FirstAlone (g : Graph τ) : Prop where
  sequence : ∀ {n : Nat} {parts : List Nat}, g.nodes[n]? = some (.sequence parts .first) →
    parts.length ≤ 1
  repetition : ∀ {n inner : Nat} {bound : Bound},
    g.nodes[n]? ≠ some (.repetition inner bound .first)

end Graph

namespace Grammar

/-- a test that `first` passes, as alternatives have it, and all shapes of the grammar -/
theorem compile_shapes {ok : Shape τ → Bool} (hfirst : ok .first = true)
    (h : grammar.shapes.all ok = true) : grammar.compile.Shapes ok := by
  intro n node shape hnode hshape
  rcases (makes_of_getElem? hnode).shape hshape with rfl | hmem
  · exact hfirst
  · exact List.all_eq_true.mp h shape hmem

theorem compile_plain (h : grammar.plain = true) : grammar.compile.Plain := by
  obtain ⟨hshapes, hroles⟩ := Bool.and_eq_true_iff.mp h
  exact ⟨compile_shapes rfl hshapes, fun {n node role} hnode hrole =>
    List.all_eq_true.mp hroles role ((makes_of_getElem? hnode).role hrole)⟩

theorem plain_of_flat (h : grammar.flat = true) : grammar.plain = true := by
  obtain ⟨hshapes, hroles⟩ := Bool.and_eq_true_iff.mp h
  refine Bool.and_eq_true_iff.mpr ⟨List.all_eq_true.mpr fun shape hshape => ?_, hroles⟩
  exact Shape.isPlain_of_isFlat (List.all_eq_true.mp hshapes shape hshape)

theorem compile_flat (h : grammar.flat = true) : grammar.compile.Shapes Shape.isFlat :=
  compile_shapes rfl (Bool.and_eq_true_iff.mp h).1

theorem compile_firstAlone (h : grammar.firstAlone = true) : grammar.compile.FirstAlone := by
  have hclause := List.all_eq_true.mp h
  constructor
  · intro n parts hnode
    generalize hnode' : Node.sequence parts (.first : Shape τ) = node at hnode
    cases makes_of_getElem? hnode with
    | @sequence c parts' hc hlength =>
      injection hnode' with hparts hshape
      subst hparts
      have hc := (Bool.and_eq_true_iff.mp (hclause c hc)).1
      rw [← hshape] at hc
      have hone : c.steps.length = 1 := by simpa [Shape.isFirst] using hc
      omega
    | alternative => cases hnode'
    | repetition _ _ => cases hnode'
    | optional => cases hnode'
    | leaf _ _ => cases hnode'
    | reference => cases hnode'
  · intro n inner bound hnode
    cases makes_of_getElem? hnode with
    | @repetition c name bound shape inner hc hs =>
      have hsteps := List.all_eq_true.mp (Bool.and_eq_true_iff.mp (hclause c hc)).2
      have hfirst := hsteps .first (List.mem_filterMap.mpr ⟨_, hs, rfl⟩)
      cases hfirst

end Grammar

/-! ## what a rule yields -/

theorem Derived.sequence_inv {g : Graph τ} {ignorables : List Pattern} {n : Nat} {parts : List Nat}
    {shape : Shape τ} {readings : List (Reading τ)} {p q : Place} {r : Fragment τ}
    (hnode : g.nodes[n]? = some (.sequence parts shape))
    (h : Derived g ignorables (.parser n) readings p q r) :
    ∃ trees, Gathered g ignorables parts readings p q trees ∧ r = shape.apply trees := by
  cases h with
  | sequence hnode' hparts =>
    cases hnode.symm.trans hnode'
    exact ⟨_, hparts, rfl⟩
  | leaf hnode' _ => cases hnode.symm.trans hnode'
  | alternative hnode' _ _ => cases hnode.symm.trans hnode'
  | repetition hnode' _ _ => cases hnode.symm.trans hnode'
  | optional hnode' _ => cases hnode.symm.trans hnode'
  | nothing hnode' => cases hnode.symm.trans hnode'
  | reference hnode' _ => cases hnode.symm.trans hnode'

theorem Derived.alternative_inv {g : Graph τ} {ignorables : List Pattern} {n : Nat}
    {choices : List Nat} {shape : Shape τ} {readings : List (Reading τ)} {p q : Place}
    {r : Fragment τ} (hnode : g.nodes[n]? = some (.alternative choices shape))
    (h : Derived g ignorables (.parser n) readings p q r) :
    ∃ choice ∈ choices, ∃ r', Derived g ignorables (.parser choice) readings p q r' ∧
      r = shape.applyOne r' := by
  cases h with
  | alternative hnode' hchoice h =>
    cases hnode.symm.trans hnode'
    exact ⟨_, hchoice, _, h, rfl⟩
  | leaf hnode' _ => cases hnode.symm.trans hnode'
  | sequence hnode' _ => cases hnode.symm.trans hnode'
  | repetition hnode' _ _ => cases hnode.symm.trans hnode'
  | optional hnode' _ => cases hnode.symm.trans hnode'
  | nothing hnode' => cases hnode.symm.trans hnode'
  | reference hnode' _ => cases hnode.symm.trans hnode'

/-- **A rule yields what one of its clauses makes of the trees of its steps.** -/
theorem Derived.stands_inv {g : Graph τ} {ignorables : List Pattern} {rule : Rule τ} {root : Nat}
    {readings : List (Reading τ)} {p q : Place} {r : Fragment τ} (hstands : rule.Stands g root)
    (h : Derived g ignorables (.parser root) readings p q r) :
    ∃ c ∈ rule.clauses, ∃ trees, r = c.result.apply trees := by
  obtain ⟨choices, hclauses, hchoices⟩ := hstands
  -- whatever choice is taken, its parser is the sequence of a clause
  have hclause : ∀ n ∈ choices, ∀ r, Derived g ignorables (.parser n) readings p q r →
      ∃ c ∈ rule.clauses, ∃ trees, r = c.result.apply trees := by
    intro n hn r h
    obtain ⟨c, hc, parts, hnode, -⟩ := exists_of_forall₂ hclauses hn
    obtain ⟨trees, -, rfl⟩ := h.sequence_inv hnode
    refine ⟨c, hc, trees, ?_⟩
    rw [c.result_eq_assembly]
  rcases hchoices with rfl | hnode
  · exact hclause root List.mem_cons_self r h
  · obtain ⟨choice, hchoice, r', h', rfl⟩ := h.alternative_inv hnode
    exact hclause choice hchoice _ h'

theorem Derived.rule_inv {ignorables : List Pattern} {i : Nat} {readings : List (Reading τ)}
    {p q : Place} {r : Fragment τ}
    (h : Derived grammar.compile ignorables (.rule i) readings p q r) :
    ∃ c ∈ grammar.clauses, ∃ trees, r = c.result.apply trees := by
  cases h with
  | @rule _ root _ _ _ _ hroot h =>
    obtain ⟨rule, hrule, hstands⟩ := Grammar.stands_of_root? hroot
    obtain ⟨c, hc, htrees⟩ := h.stands_inv hstands
    exact ⟨c, List.mem_flatMap.mpr ⟨rule, hrule, hc⟩, htrees⟩

end

end Packrat
