import Packrat.Proofs.Turns
import Packrat.Proofs.Uniting
import Packrat.Proofs.Wrapper

/-!
# How the parsers of a graph hang together

Each rule becomes a block of parsers, and each parser of a block but the last is part of just one
other.  What parses and what analyses rely on this without asking.

* `Knit`                in a block, every number but the last is given as a part, once;
* `Graph.Part`, `Graph.Under`   parts, and parts of parts;
* `Graph.Forest`        parts have smaller numbers, and every parser is one part or one root;
* `Graph.starts`        where the blocks of the rules begin;
* `Graph.WellFormed`    what holds of the graph of a grammar;
* `Graph.Indexed`       so whatever is looked up by a number is there;
* `Stage.Indexed`       and the numbers that a run comes upon are no others;
* `graph_well_formed`   all of it, for every grammar.
-/

namespace Packrat

/-! ## every part once -/

section
variable {τ β : Type}

/-- the numbers of all parts of the nodes, in order -/
def partsOf (nodes : List (Node τ)) : List Nat := nodes.flatMap Node.operands

theorem partsOf_append (xs ys : List (Node τ)) : partsOf (xs ++ ys) = partsOf xs ++ partsOf ys :=
  List.flatMap_append

theorem mem_partsOf {nodes : List (Node τ)} {part : Nat} :
    part ∈ partsOf nodes ↔
      ∃ (i : Nat) (node : Node τ), nodes[i]? = some node ∧ part ∈ node.operands := by
  rw [partsOf, List.mem_flatMap]
  constructor
  · rintro ⟨node, hnode, hpart⟩
    obtain ⟨i, hi⟩ := List.mem_iff_getElem?.mp hnode
    exact ⟨i, node, hi, hpart⟩
  · rintro ⟨i, node, hi, hpart⟩
    exact ⟨node, List.mem_of_getElem? hi, hpart⟩

/-- in a block that begins with the number `base`, every number but the last is given as a part,
once -/
def Knit (base : Nat) (block : List (Node τ)) : Prop :=
  ∃ n, block.length = n + 1 ∧ (partsOf block).Perm (List.range' base n)

variable {nodes : Nat → β → List (Node τ)}

/-- the last nodes of blocks in a row are all that is left as parts of something else -/
theorem layOut_knit (h : ∀ base b, Knit base (nodes base b)) (base : Nat) (bs : List β) :
    (partsOf (layOut nodes base bs).1 ++ (layOut nodes base bs).2).Perm
      (List.range' base (layOut nodes base bs).1.length) := by
  induction bs generalizing base with
  | nil => exact .nil
  | cons b bs ih =>
    obtain ⟨n, hlength, hparts⟩ := h base b
    have hmore := ih (base + (nodes base b).length)
    show (partsOf (nodes base b ++ (layOut nodes (base + (nodes base b).length) bs).1) ++
      (base + (nodes base b).length - 1) :: (layOut nodes (base + (nodes base b).length) bs).2).Perm
      (List.range' base (nodes base b ++ (layOut nodes (base + (nodes base b).length) bs).1).length)
    rw [hlength] at hmore ⊢
    rw [partsOf_append, List.length_append, hlength, List.append_assoc, ← Nat.add_assoc,
      Nat.add_sub_cancel]
    rw [← List.range'_append_1, List.range'_1_concat, List.append_assoc]
    exact hparts.append (List.perm_middle.trans (.cons _ hmore))

/-- one more node, for a thing whose parts are the blocks -/
theorem Knit.whole (h : ∀ base b, Knit base (nodes base b)) (base : Nat) (bs : List β)
    {whole : Node τ} (hwhole : whole.operands = (layOut nodes base bs).2) :
    Knit base ((layOut nodes base bs).1 ++ [whole]) := by
  refine ⟨(layOut nodes base bs).1.length, List.length_append, ?_⟩
  have hlast : partsOf [whole] = (layOut nodes base bs).2 := by
    rw [partsOf, List.flatMap_singleton, hwhole]
  rw [partsOf_append, hlast]
  exact layOut_knit h base bs

end

section
variable {τ : Type} (index : String → Option Nat)

theorem Step.knit (base : Nat) (s : Step τ) : Knit base (s.nodes index base) := by
  cases s with
  | leaf source role => exact ⟨0, rfl, .nil⟩
  | call name => exact ⟨0, rfl, .nil⟩
  | repetition name bound shape => exact ⟨1, rfl, .refl _⟩
  | maybe name => exact ⟨1, rfl, .refl _⟩
  | anyOf names =>
    have hnone : partsOf (names.map fun name => (.reference name (index name) : Node τ)) = [] := by
      rw [partsOf, List.flatMap_map]
      exact List.flatMap_eq_nil_iff.mpr fun _ _ => rfl
    refine ⟨names.length, ?_, ?_⟩
    · rw [nodes, List.length_append, List.length_map]
      rfl
    · rw [nodes, partsOf_append, hnone, List.nil_append]
      show (List.range' base names.length ++ []).Perm _
      rw [List.append_nil]

theorem Clause.knit (base : Nat) (c : Clause τ) : Knit base (c.nodes index base) :=
  Knit.whole (Step.knit index) base c.steps rfl

theorem Rule.knit (base : Nat) (rule : Rule τ) : Knit base (rule.nodes index base) := by
  rcases Rule.nodes_eq index base rule with ⟨c, -, h⟩ | h
  · rw [h]
    exact c.knit index base
  · rw [h]
    exact Knit.whole (Clause.knit index) base rule.clauses rfl

end

/-! ## parts of parts -/

section
variable {τ : Type}

namespace Graph

/-- the second parser is a part of the first -/
def Part (g : Graph τ) : Nat → Nat → Prop := Operand g.nodes

/-- the second parser is the first, or a part of it, or a part of a part, and so on -/
def Under (g : Graph τ) : Nat → Nat → Prop := Relation.ReflTransGen g.Part

/-- parts have smaller numbers than what they are part of, and every number is that of one root or
given as a part once -/
structure Forest (g : Graph τ) : Prop where
  lower : ∀ {i : Nat} {node : Node τ}, g.nodes[i]? = some node → ∀ part ∈ node.operands, part < i
  once : (partsOf g.nodes.toList ++ g.roots.toList).Perm (List.range g.nodes.size)

variable {g : Graph τ} {i whole whole' root root' : Nat}

/-- the parsers that are listed for a parser are those under it -/
theorem mem_nodesUnder_iff {j : Nat} : j ∈ nodesUnder g.nodes i ↔ g.Under i j := mem_nodesUnder

theorem part_iff_mem : (∃ whole, g.Part whole i) ↔ i ∈ partsOf g.nodes.toList := by
  rw [mem_partsOf]
  simp only [Part, Operand, Array.getElem?_toList]

namespace Forest

theorem part_lt (h : g.Forest) (hpart : g.Part whole i) : i < whole := by
  obtain ⟨node, hnode, hmem⟩ := hpart
  exact h.lower hnode i hmem

theorem whole_lt (hpart : g.Part whole i) : whole < g.nodes.size := by
  obtain ⟨node, hnode, -⟩ := hpart
  exact (Array.getElem?_eq_some_iff.mp hnode).1

theorem under_le (h : g.Forest) (hunder : g.Under root i) : i ≤ root := by
  induction hunder with
  | refl => exact Nat.le_refl _
  | tail _ hpart ih => exact Nat.le_trans (Nat.le_of_lt (h.part_lt hpart)) ih

theorem nodup (h : g.Forest) : (partsOf g.nodes.toList ++ g.roots.toList).Nodup :=
  h.once.nodup_iff.mpr List.nodup_range

theorem root_lt (h : g.Forest) (hroot : root ∈ g.roots.toList) : root < g.nodes.size :=
  List.mem_range.mp (h.once.mem_iff.mp (List.mem_append_right _ hroot))

/-- a root is a part of nothing -/
theorem not_part_root (h : g.Forest) (hroot : root ∈ g.roots.toList) : ¬ g.Part whole root := by
  intro hpart
  exact (List.nodup_append.mp h.nodup).2.2 root (part_iff_mem.mp ⟨whole, hpart⟩) root hroot rfl

theorem root_or_part (h : g.Forest) (hi : i < g.nodes.size) :
    i ∈ g.roots.toList ∨ ∃ whole, g.Part whole i := by
  rcases List.mem_append.mp (h.once.mem_iff.mpr (List.mem_range.mpr hi)) with hpart | hroot
  · exact .inr (part_iff_mem.mpr hpart)
  · exact .inl hroot

/-- no parser is part of two others -/
theorem whole_unique (h : g.Forest) (hpart : g.Part whole i) (hpart' : g.Part whole' i) :
    whole = whole' := by
  obtain ⟨node, hnode, hmem⟩ := hpart
  obtain ⟨node', hnode', hmem'⟩ := hpart'
  have hapart := (List.nodup_flatMap.mp (List.nodup_append.mp h.nodup).1).2
  rw [← Array.getElem?_toList] at hnode hnode'
  obtain ⟨hlt, rfl⟩ := List.getElem?_eq_some_iff.mp hnode
  obtain ⟨hlt', rfl⟩ := List.getElem?_eq_some_iff.mp hnode'
  rcases Nat.lt_trichotomy whole whole' with hless | heq | hmore
  · exact absurd hmem' (List.pairwise_iff_getElem.mp hapart whole whole' hlt hlt' hless hmem)
  · exact heq
  · exact absurd hmem (List.pairwise_iff_getElem.mp hapart whole' whole hlt' hlt hmore hmem')

/-- nor twice part of one -/
theorem count_eq_one (h : g.Forest) {node : Node τ} (hnode : g.nodes[whole]? = some node)
    (hmem : i ∈ node.operands) : node.operands.count i = 1 := by
  rw [← Array.getElem?_toList] at hnode
  have hnodup := (List.nodup_flatMap.mp (List.nodup_append.mp h.nodup).1).1 node
    (List.mem_of_getElem? hnode)
  exact List.count_eq_one_of_mem hnodup hmem

/-- from any of some numbers, the way up among them leads to the top -/
theorem climb (h : g.Forest) {among top : Nat → Prop}
    (hup : ∀ i, among i → top i ∨ ∃ whole, among whole ∧ g.Part whole i) (hi : among i) :
    ∃ root, top root ∧ g.Under root i := by
  induction hn : g.nodes.size - i using Nat.strong_induction_on generalizing i with
  | h n ih =>
    rcases hup i hi with htop | ⟨whole, hwhole, hpart⟩
    · exact ⟨i, htop, .refl⟩
    · have hless := h.part_lt hpart
      have hbound := whole_lt hpart
      obtain ⟨root, hroot, hunder⟩ := ih (g.nodes.size - whole) (by omega) hwhole rfl
      exact ⟨root, hroot, hunder.tail hpart⟩

/-- every parser is under some root -/
theorem exists_root (h : g.Forest) (hi : i < g.nodes.size) :
    ∃ root ∈ g.roots.toList, g.Under root i := by
  have hup : ∀ i, i < g.nodes.size →
      i ∈ g.roots.toList ∨ ∃ whole, whole < g.nodes.size ∧ g.Part whole i := by
    intro i hi
    rcases h.root_or_part hi with hroot | ⟨whole, hpart⟩
    · exact .inl hroot
    · exact .inr ⟨whole, whole_lt hpart, hpart⟩
  exact h.climb hup hi

/-- and under no other -/
theorem root_unique (h : g.Forest) (hroot : root ∈ g.roots.toList) (hroot' : root' ∈ g.roots.toList)
    (hunder : g.Under root i) (hunder' : g.Under root' i) : root = root' := by
  induction hunder with
  | refl =>
    rcases hunder'.cases_tail with heq | ⟨whole, -, hpart⟩
    · exact heq
    · exact absurd hpart (h.not_part_root hroot)
  | tail _ hpart ih =>
    rcases hunder'.cases_tail with rfl | ⟨whole, hwhole, hpart'⟩
    · exact absurd hpart (h.not_part_root hroot')
    · rw [← h.whole_unique hpart hpart'] at hwhole
      exact ih hwhole

end Forest

end Graph

/-! ## blocks -/

/-- blocks in a row begin where the one before them ends -/
theorem layOut_starts {β : Type} {block : Nat → β → List (Node τ)} {nodes : Array (Node τ)}
    (hpos : ∀ base b, 0 < (block base b).length) {base r : Nat} {bs : List β} {b : β}
    (h : Placed nodes base (layOut block base bs).1) (hb : bs[r]? = some b) :
    ∃ start last, (base :: (layOut block base bs).2.map (· + 1))[r]? = some start ∧
      (layOut block base bs).2[r]? = some last ∧ Placed nodes start (block start b) ∧
      last + 1 = start + (block start b).length := by
  induction bs generalizing base r with
  | nil => cases hb
  | cons b' bs ih =>
    have hlength := hpos base b'
    cases r with
    | zero =>
      cases hb
      exact ⟨base, _, rfl, rfl, h.left, by omega⟩
    | succ r =>
      obtain ⟨start, last, hstart, hlast, hplaced, hends⟩ := ih h.right hb
      refine ⟨start, last, ?_, hlast, hplaced, hends⟩
      rw [← hstart]
      show ((base + (block base b').length - 1 + 1) :: _)[r]? = ((base + (block base b').length) :: _)[r]?
      rw [Nat.sub_add_cancel (by omega)]

/-- the last block ends with the last node -/
theorem layOut_starts_length {β : Type} {block : Nat → β → List (Node τ)}
    (hpos : ∀ base b, 0 < (block base b).length) (base : Nat) (bs : List β) :
    (base :: (layOut block base bs).2.map (· + 1))[bs.length]? =
      some (base + (layOut block base bs).1.length) := by
  induction bs generalizing base with
  | nil => rfl
  | cons b bs ih =>
    have hlength := hpos base b
    show ((base + (block base b).length - 1 + 1) :: _)[bs.length]? =
      some (base + (block base b ++ _).length)
    rw [Nat.sub_add_cancel (by omega), ih, List.length_append, Nat.add_assoc]

/-- **The parsers under the last one of a block are those of the block.** -/
theorem Knit.under_iff {g : Graph τ} (h : g.Forest) {start root i : Nat} {block : List (Node τ)}
    (hknit : Knit start block) (hplaced : Placed g.nodes start block)
    (hroot : root + 1 = start + block.length) :
    g.Under root i ↔ start ≤ i ∧ i ≤ root := by
  obtain ⟨n, hlength, hparts⟩ := hknit
  constructor
  · intro hunder
    refine ⟨?_, h.under_le hunder⟩
    induction hunder with
    | refl => omega
    | @tail whole part hunder hpart ih =>
      have hwhole := h.under_le hunder
      obtain ⟨node, hnode, hmem⟩ := hpart
      have hin : whole - start < block.length := by omega
      have hsame := hplaced _ _ (List.getElem?_eq_getElem hin)
      rw [Nat.add_sub_cancel' ih, hnode] at hsame
      cases hsame
      have hmem' := mem_partsOf.mpr ⟨_, _, List.getElem?_eq_getElem hin, hmem⟩
      exact (List.mem_range'_1.mp (hparts.mem_iff.mp hmem')).1
  · intro hi
    have hup : ∀ i, start ≤ i ∧ i ≤ root →
        i = root ∨ ∃ whole, (start ≤ whole ∧ whole ≤ root) ∧ g.Part whole i := by
      intro i hi
      by_cases hlast : i = root
      · exact .inl hlast
      · have hrange : i ∈ List.range' start n := List.mem_range'_1.mpr ⟨hi.1, by omega⟩
        obtain ⟨k, node, hnode, hmem⟩ := mem_partsOf.mp (hparts.mem_iff.mpr hrange)
        have hk := (List.getElem?_eq_some_iff.mp hnode).1
        exact .inr ⟨start + k, ⟨by omega, by omega⟩, node, hplaced k node hnode, hmem⟩
    obtain ⟨top, rfl, hunder⟩ := h.climb hup hi
    exact hunder

/-! ## the graph of a grammar -/

namespace Graph

/-- where the blocks of the rules begin: the first with number zero and each other one after the root
of the rule before it; the last number is that after the last block -/
def starts (g : Graph τ) : List Nat := 0 :: g.roots.toList.map (· + 1)

/-- what holds of the graph of a grammar -/
structure WellFormed (g : Graph τ) (grammar : Grammar τ) : Prop where
  /-- parts have smaller numbers than what they are part of -/
  lower : ∀ {i : Nat} {node : Node τ}, g.nodes[i]? = some node → ∀ part ∈ node.operands, part < i
  /-- the parsers of a rule, which are those under its root, are the block from the end of the block
  before up to the root -/
  block : ∀ {r : Nat} {entry : RuleEntry}, g.rules[r]? = some entry →
    ∃ start rule, g.starts[r]? = some start ∧ start ≤ entry.root ∧ entry.root < g.nodes.size ∧
      grammar.definitions[r]? = some rule ∧ rule.name = entry.name ∧
      Placed g.nodes start (rule.nodes grammar.index start) ∧
      entry.root + 1 = start + (rule.nodes grammar.index start).length ∧
      ∀ i, g.Under entry.root i ↔ start ≤ i ∧ i ≤ entry.root
  /-- the blocks are all there is -/
  filled : g.starts[g.rules.size]? = some g.nodes.size
  /-- every parser is under one root -/
  owner : ∀ {i : Nat}, i < g.nodes.size → ∃! r, ∃ root, g.root? r = some root ∧ g.Under root i
  /-- every parser that is no root is part of one other, once -/
  part : ∀ {i : Nat}, i < g.nodes.size → (∀ r, g.root? r ≠ some i) →
    (∃! whole, g.Part whole i) ∧
      ∀ {whole : Nat} {node : Node τ}, g.nodes[whole]? = some node → i ∈ node.operands →
        node.operands.count i = 1
  /-- a reference has the number of the rule with its name, if there is one -/
  reference : ∀ {i : Nat} {name : String} {rule : Option Nat},
    g.nodes[i]? = some (.reference name rule) →
    ((∃ r ∈ grammar.rules, r.name = name) →
      ∃ (id : Nat) (entry : RuleEntry), rule = some id ∧ g.rules[id]? = some entry ∧
        entry.name = name) ∧
    ((∀ r ∈ grammar.rules, r.name ≠ name) → rule = none)
  /-- every definition has its entry -/
  entry : ∀ {r : Nat} {rule : Rule τ}, grammar.definitions[r]? = some rule →
    ∃ entry, g.rules[r]? = some entry ∧ entry.name = rule.name
  /-- the names of the rules differ -/
  names : (g.rules.toList.map RuleEntry.name).Nodup
  /-- and the table gives their numbers, and no others -/
  number : ∀ {name : String} {r : Nat}, g.ruleIndex? name = some r ↔
    ∃ entry, g.rules[r]? = some entry ∧ entry.name = name

end Graph

namespace Grammar
variable (grammar : Grammar τ)

theorem compile_forest : grammar.compile.Forest := by
  refine ⟨grammar.operand_lt, ?_⟩
  have hparts := layOut_knit (Rule.knit (τ := τ) grammar.index) 0 grammar.definitions
  rw [← List.range_eq_range'] at hparts
  rw [compile_roots]
  exact hparts

theorem compile_block {r : Nat} {rule : Rule τ} (h : grammar.definitions[r]? = some rule) :
    ∃ start root, grammar.compile.starts[r]? = some start ∧ grammar.compile.root? r = some root ∧
      Placed grammar.compile.nodes start (rule.nodes grammar.index start) ∧
      root + 1 = start + (rule.nodes grammar.index start).length := by
  obtain ⟨start, root, hstart, hroot, hblock⟩ :=
    layOut_starts (Rule.nodes_pos grammar.index) grammar.placed_nodes h
  refine ⟨start, root, ?_, ?_, hblock⟩
  · rw [Graph.starts, compile_roots]
    exact hstart
  · rw [compile_root?]
    exact hroot

/-- the entry of a rule, and the rule -/
theorem exists_definition {r : Nat} {entry : RuleEntry}
    (h : grammar.compile.rules[r]? = some entry) :
    ∃ rule, grammar.definitions[r]? = some rule ∧ rule.name = entry.name ∧
      grammar.compile.root? r = some entry.root := by
  have hr := (Array.getElem?_eq_some_iff.mp h).1
  rw [compile_rules_size] at hr
  have hrule := List.getElem?_eq_getElem hr
  obtain ⟨-, root, -, hroot, -⟩ := grammar.compile_block hrule
  have hentry := (getElem?_compile_rules hrule hroot).symm.trans h
  cases hentry
  exact ⟨_, hrule, rfl, hroot⟩

theorem mem_roots {root : Nat} :
    root ∈ grammar.compile.roots.toList ↔ ∃ r, grammar.compile.root? r = some root := by
  rw [List.mem_iff_getElem?]
  simp only [Array.getElem?_toList, Graph.getElem?_roots]

theorem compile_names : grammar.compile.rules.toList.map RuleEntry.name =
    grammar.definitions.map Rule.name := by
  apply List.ext_getElem?
  intro r
  rw [List.getElem?_map, List.getElem?_map, Array.getElem?_toList]
  cases hentry : grammar.compile.rules[r]? with
  | none =>
    rw [Array.getElem?_eq_none_iff, compile_rules_size, ← List.getElem?_eq_none_iff] at hentry
    rw [hentry]
    rfl
  | some entry =>
    obtain ⟨rule, hrule, hname, -⟩ := grammar.exists_definition hentry
    rw [hrule, Option.map_some, Option.map_some, hname]

theorem exists_entry_of_definition {r : Nat} {rule : Rule τ}
    (h : grammar.definitions[r]? = some rule) :
    ∃ entry, grammar.compile.rules[r]? = some entry ∧ entry.name = rule.name := by
  obtain ⟨-, root, -, hroot, -⟩ := grammar.compile_block h
  exact ⟨_, getElem?_compile_rules h hroot, rfl⟩

theorem compile_number {name : String} {r : Nat} : grammar.compile.ruleIndex? name = some r ↔
    ∃ entry, grammar.compile.rules[r]? = some entry ∧ entry.name = name := by
  constructor
  · intro h
    obtain ⟨rule, -, hrule, hname, -⟩ := exists_of_index h
    obtain ⟨entry, hentry, hsame⟩ := grammar.exists_entry_of_definition hrule
    exact ⟨entry, hentry, hsame.trans hname⟩
  · rintro ⟨entry, hentry, rfl⟩
    obtain ⟨rule, hrule, hname, -⟩ := grammar.exists_definition hentry
    rw [compile_ruleIndex?, ← hname]
    exact index_of_getElem? grammar.nodup_definitions hrule

/-- **The graph of a grammar is well formed**, whatever its rules are. -/
theorem compile_wellFormed : grammar.compile.WellFormed grammar where
  lower := grammar.operand_lt
  block := by
    intro r entry hentry
    obtain ⟨rule, hrule, hname, hroot⟩ := grammar.exists_definition hentry
    obtain ⟨start, root, hstart, hroot', hplaced, hends⟩ := grammar.compile_block hrule
    cases hroot.symm.trans hroot'
    have hpos := rule.nodes_pos grammar.index start
    have hlt := grammar.compile_forest.root_lt (grammar.mem_roots.mpr ⟨r, hroot⟩)
    refine ⟨start, rule, hstart, by omega, hlt, hrule, hname, hplaced, hends, fun i => ?_⟩
    exact (rule.knit grammar.index start).under_iff grammar.compile_forest hplaced hends
  filled := by
    have hlast := layOut_starts_length (Rule.nodes_pos (τ := τ) grammar.index) 0 grammar.definitions
    rw [Nat.zero_add] at hlast
    rw [compile_rules_size, Graph.starts, compile_roots]
    exact hlast
  owner := by
    intro i hi
    obtain ⟨root, hmem, hunder⟩ := grammar.compile_forest.exists_root hi
    obtain ⟨r, hroot⟩ := grammar.mem_roots.mp hmem
    refine ⟨r, ⟨root, hroot, hunder⟩, ?_⟩
    rintro s ⟨root', hroot', hunder'⟩
    have hmem' := grammar.mem_roots.mpr ⟨s, hroot'⟩
    have hsame := grammar.compile_forest.root_unique hmem hmem' hunder hunder'
    subst hsame
    have hnodup := (List.nodup_append.mp grammar.compile_forest.nodup).2.1
    rw [← Graph.getElem?_roots, ← Array.getElem?_toList] at hroot hroot'
    obtain ⟨hr, heq⟩ := List.getElem?_eq_some_iff.mp hroot
    obtain ⟨hs, heq'⟩ := List.getElem?_eq_some_iff.mp hroot'
    exact hnodup.getElem_inj_iff.mp (heq'.trans heq.symm)
  part := by
    intro i hi hnone
    have hroot : i ∉ grammar.compile.roots.toList := by
      intro hmem
      obtain ⟨r, hr⟩ := grammar.mem_roots.mp hmem
      exact hnone r hr
    obtain ⟨whole, hpart⟩ := (grammar.compile_forest.root_or_part hi).resolve_left hroot
    refine ⟨⟨whole, hpart, fun other hother => ?_⟩, fun hnode hmem => ?_⟩
    · exact grammar.compile_forest.whole_unique hother hpart
    · exact grammar.compile_forest.count_eq_one hnode hmem
  reference := by
    intro i name rule hnode
    have hrule : rule = grammar.index name := (reference_of_getElem? hnode).1
    refine ⟨fun hdeclared => ?_, fun hundeclared => ?_⟩
    · obtain ⟨id, hid⟩ := Option.isSome_iff_exists.mp ((index_isSome_iff name).mpr hdeclared)
      rw [← compile_ruleIndex?] at hid hrule
      obtain ⟨entry, hentry, hname⟩ := grammar.compile_number.mp hid
      exact ⟨id, entry, hrule.trans hid, hentry, hname⟩
    · cases hid : grammar.index name with
      | none => exact hrule.trans hid
      | some id =>
        have hsome : (grammar.index name).isSome = true := by rw [hid]; rfl
        obtain ⟨r, hr, hname⟩ := (index_isSome_iff name).mp hsome
        exact absurd hname (hundeclared r hr)
  names := by
    rw [grammar.compile_names]
    exact grammar.nodup_definitions
  entry := grammar.exists_entry_of_definition
  number := grammar.compile_number

end Grammar

/-! ## numbers that are looked up -/

/-- whatever the analysis of the graph looks up by a number is there -/
structure Graph.Indexed (g : Graph τ) : Prop where
  /-- the parts of parsers are parsers -/
  part : ∀ {whole part : Nat}, g.Part whole part → part < g.nodes.size
  /-- the rules of references are rules -/
  target : ∀ {i rule : Nat} {name : String},
    g.nodes[i]? = some (.reference name (some rule)) → rule < g.rules.size
  /-- the roots of rules are parsers -/
  root : ∀ {r root : Nat}, g.root? r = some root → root < g.nodes.size
  /-- nullability is found out for each parser -/
  nullable : (nullableNodes g.nodes g.roots).size = g.nodes.size
  /-- the parsers listed under a root are those under it -/
  listed : ∀ {r root : Nat}, g.root? r = some root →
    ∀ j, j ∈ nodesUnder g.nodes root ↔ g.Under root j
  /-- and they are parsers -/
  under : ∀ {r root j : Nat}, g.root? r = some root → g.Under root j → j < g.nodes.size
  /-- the rules that a rule names are rules -/
  called : ∀ {r root : Nat}, g.root? r = some root →
    ∀ s ∈ calledRules g.nodes root, s < g.rules.size
  /-- and so are all that the search for a chain of calls comes upon -/
  reached : ∀ {r s : Nat}, Relation.TransGen (Onward g.calls) r s → s < g.rules.size

theorem Graph.lt_of_root? {g : Graph τ} {r root : Nat} (h : g.root? r = some root) :
    r < g.rules.size := by
  rw [← getElem?_roots] at h
  have hlt := (Array.getElem?_eq_some_iff.mp h).1
  rwa [roots, Array.size_map] at hlt

theorem Graph.WellFormed.lt_of_reference {g : Graph τ} {grammar : Grammar τ}
    (h : g.WellFormed grammar) {i rule : Nat} {name : String}
    (hnode : g.nodes[i]? = some (.reference name (some rule))) : rule < g.rules.size := by
  obtain ⟨hdeclared, hundeclared⟩ := h.reference hnode
  by_cases hname : ∃ r ∈ grammar.rules, r.name = name
  · obtain ⟨id, entry, hid, hentry, -⟩ := hdeclared hname
    cases hid
    exact (Array.getElem?_eq_some_iff.mp hentry).1
  · have hnone := hundeclared fun r hr heq => hname ⟨r, hr, heq⟩
    cases hnone

theorem Grammar.compile_indexed (grammar : Grammar τ) : grammar.compile.Indexed := by
  have hforest := grammar.compile_forest
  have htarget : ∀ {i rule : Nat} {name : String},
      grammar.compile.nodes[i]? = some (.reference name (some rule)) →
      rule < grammar.compile.rules.size := grammar.compile_wellFormed.lt_of_reference
  have hroot : ∀ {r root : Nat}, grammar.compile.root? r = some root →
      root < grammar.compile.nodes.size := fun hr => hforest.root_lt (grammar.mem_roots.mpr ⟨_, hr⟩)
  have hcalled : ∀ {root s : Nat}, s ∈ calledRules grammar.compile.nodes root →
      s < grammar.compile.rules.size := by
    intro root s hs
    rw [calledRules, parts, List.filterMap_filterMap] at hs
    obtain ⟨j, -, hs⟩ := List.mem_filterMap.mp hs
    obtain ⟨node, hnode, hs⟩ := Option.bind_eq_some_iff.mp hs
    cases node with
    | reference name rule =>
      cases hs
      exact htarget hnode
    | _ => cases hs
  refine ⟨fun hpart => ?_, htarget, hroot, size_nullableNodes _ _, fun hr j => Graph.mem_nodesUnder_iff,
    fun hr hunder => ?_, fun hr s => hcalled, fun hchain => ?_⟩
  · exact Nat.lt_trans (hforest.part_lt hpart) (Graph.Forest.whole_lt hpart)
  · exact Nat.lt_of_le_of_lt (hforest.under_le hunder) (hroot hr)
  · -- the last call of the chain is made by some rule
    obtain ⟨r, -, hlast⟩ := Relation.TransGen.tail'_iff.mp hchain
    cases hr : grammar.compile.root? r with
    | none =>
      rw [Onward, grammar.compile.getD_calls_none hr] at hlast
      cases hlast
    | some root =>
      rw [Onward, grammar.compile.getD_calls hr] at hlast
      exact hcalled hlast

/-! ## numbers that a run comes upon -/

/-- the rule that the event tells of -/
def Event.rule? : Event → Option Nat
  | .entered rule _ => some rule
  | .exited rule _ _ => some rule
  | .cut rule _ => some rule
  | .unresolved _ => none
  | .stalled _ => none

theorem Event.Plain.rule?_eq_none {e : Event} (h : e.Plain) : e.rule? = none := by
  cases e with
  | unresolved name => rfl
  | stalled offset => rfl
  | entered rule offset => cases h
  | exited rule offset matched => cases h
  | cut rule offset => cases h

/-- the events tell of rules of the graph -/
def Ledger.Indexed (g : Graph τ) (l : Ledger τ) : Prop :=
  ∀ e ∈ l.events, ∀ r, e.rule? = some r → r < g.rules.size

/-- what is to be started is a parser of the graph, unless it was asked for by its number; the frames
wait for their parts, and the events tell of rules of the graph -/
structure Stage.Indexed (g : Graph τ) (call : Call) (s : Stage τ) : Prop where
  task : ∀ node, s.task = .start node → node < g.nodes.size ∨ call = .parser node
  frames : ∀ frame ∈ s.frames, ∃ node, frame.Expects g node
  ledger : s.ledger.Indexed g

section
variable {g : Graph τ} {ignorables : List Pattern} {call : Call} {l : Ledger τ} {s s' : Stage τ}

namespace Ledger.Indexed

theorem note (h : l.Indexed g) {e : Event} (he : ∀ r, e.rule? = some r → r < g.rules.size) :
    (l.note e).Indexed g := by
  intro e' he' r hr
  rcases List.mem_cons.mp he' with rfl | he'
  · exact he r hr
  · exact h e' he' r hr

theorem congruence (g : Graph τ) :
    Congruence (fun l l' : Ledger τ => l = l' ∧ l.Indexed g) fun _ => True where
  same h := congrArg (·.reader.place) h.1
  here _ := trivial
  moveTo {_ _ p} h _ := ⟨congrArg (·.moveTo p) h.1, h.2⟩
  readTo {_ _ q} h _ := ⟨congrArg (·.readTo q) h.1, h.2⟩
  count f _ h := ⟨congrArg (·.count f) h.1, h.2⟩
  note e he h := ⟨congrArg (·.note e) h.1, h.2.note fun r hr => by
    rw [he.rule?_eq_none] at hr
    cases hr⟩

theorem enter (h : l.Indexed g) (rule : Nat) : (l.enter g rule).2.Indexed g := by
  cases hroot : g.root? rule with
  | none =>
    rw [enter_undefined hroot]
    exact h
  | some root =>
    have hrule : ∀ r, some rule = some r → r < g.rules.size := by
      rintro r ⟨⟩
      exact Graph.lt_of_root? hroot
    cases hentry : l.known? (l.key rule) with
    | none =>
      rw [enter_absent hroot hentry]
      intro e he
      rw [begun_events] at he
      exact h.note (e := .entered rule l.reader.offset) hrule e he
    | some entry =>
      cases entry with
      | inProgress =>
        rw [enter_inProgress hroot hentry]
        exact h.note hrule
      | done result stop =>
        rw [enter_done hroot hentry]
        exact h

theorem start (h : l.Indexed g) (node : Nat) : (l.start g ignorables node).2.Indexed g := by
  rcases start_alike g ignorables (congruence g) ⟨rfl, h⟩ node with ⟨rule, hrule⟩ | halike
  · rw [hrule]
    exact h.enter rule
  · exact halike.ledger.2

theorem resume (h : l.Indexed g) {frame : Frame τ} {node : Nat} (hframe : frame.Expects g node)
    (part : Option (Fragment τ)) : (l.resume frame part).2.Indexed g := by
  rcases frame.rule_or_plain with ⟨rule, start, rfl⟩ | hplain
  · refine h.note (e := .exited rule start.offset part.isSome) ?_
    rintro r ⟨⟩
    exact Graph.lt_of_root? hframe
  · exact (resume_alike (congruence g) ⟨rfl, h⟩ hplain part).ledger.2

end Ledger.Indexed

/-- a part that is waited for is a parser of the graph -/
theorem Graph.Indexed.expects_lt (hg : g.Indexed) {frame : Frame τ} {node : Nat}
    (h : frame.Expects g node) : node < g.nodes.size := by
  cases frame with
  | sequence todo shape start collected =>
    obtain ⟨whole, done, hwhole⟩ := h
    exact hg.part ⟨_, hwhole, List.mem_append_right _ List.mem_cons_self⟩
  | alternative todo shape start =>
    obtain ⟨whole, tried, hwhole⟩ := h
    exact hg.part ⟨_, hwhole, List.mem_append_right _ List.mem_cons_self⟩
  | repetition inner bound shape count start before collected =>
    obtain ⟨rfl, whole, hwhole⟩ := h
    exact hg.part ⟨_, hwhole, List.mem_cons_self⟩
  | optional =>
    obtain ⟨whole, hwhole⟩ := h
    exact hg.part ⟨_, hwhole, List.mem_cons_self⟩
  | rule number start => exact hg.root h

namespace Stage.Indexed

theorem after (hg : g.Indexed) {frames : List (Frame τ)} {x : Move τ × Ledger τ}
    (hframes : ∀ frame ∈ frames, ∃ node, frame.Expects g node) (hmove : x.1.Expects g)
    (hledger : x.2.Indexed g) : (Stage.after frames x).Indexed g call := by
  obtain ⟨move, l⟩ := x
  cases move with
  | answer result => exact ⟨fun node htask => (by cases htask), hframes, hledger⟩
  | wait frame node =>
    refine ⟨fun node' htask => ?_, List.forall_mem_cons.mpr ⟨⟨node, hmove⟩, hframes⟩, hledger⟩
    cases htask
    exact .inl (hg.expects_lt hmove)

theorem request (hg : g.Indexed) (h : l.Indexed g) (call : Call) :
    (Stage.request g l call).Indexed g call := by
  cases call with
  | parser node =>
    refine ⟨fun node' htask => ?_, fun frame hframe => (by cases hframe), h⟩
    cases htask
    exact .inr rfl
  | rule rule =>
    exact after hg (fun frame hframe => (by cases hframe)) (l.enter_expects rule) (h.enter rule)

theorem step (hg : g.Indexed) (h : s.Indexed g call) (hstep : Stage.Step g ignorables s s') :
    s'.Indexed g call := by
  cases hstep with
  | start frames node l => exact after hg h.frames (l.start_expects node) (h.ledger.start node)
  | resume frame frames result l =>
    obtain ⟨⟨node, hframe⟩, hframes⟩ := List.forall_mem_cons.mp h.frames
    exact after hg hframes (l.resume_expects hframe result) (h.ledger.resume hframe result)

end Stage.Indexed

namespace Machine
variable {m m' : Machine τ}

/-- every state of a request -/
theorem Steps.indexed (hg : g.Indexed) (hm : m.Idle) (h : m.ledger.Indexed g)
    (hsteps : Steps g ignorables (m.request g call) m') :
    ∃ s, m'.At s ∧ s.Indexed g call := by
  induction hsteps with
  | refl => exact ⟨_, at_request hm call, .request hg h call⟩
  | tail _ hgoes ih =>
    obtain ⟨s, hat, hs⟩ := ih
    obtain ⟨s', hstep, hat'⟩ := hat.goes hgoes
    exact ⟨s', hat', hs.step hg hstep⟩

/-- and so every request of a session -/
theorem indexed_of_session? (hg : g.Indexed) {limit : Nat} {calls : List Call}
    {replies : List (Reply τ)} (hm : m.Idle) (h : m.ledger.Indexed g)
    (hsession : m.session? g ignorables limit calls = some (replies, m')) : m'.ledger.Indexed g := by
  induction calls generalizing m replies with
  | nil =>
    cases hsession
    exact h
  | cons call calls ih =>
    rw [session?] at hsession
    split at hsession
    · cases hsession
    · next result m₁ hserve =>
      obtain ⟨m₂, m₃, hsteps, hend, htake⟩ := steps_of_serve? hserve
      obtain ⟨s, hat, hs⟩ := hsteps.indexed hg hm h
      obtain ⟨-, -, -, -, hidle, hledger⟩ := hat.finished hend
      rw [htake] at hidle hledger
      split at hsession
      · cases hsession
      · next replies' m₄ hrest =>
        cases hsession
        refine ih hidle ?_ hrest
        rw [hledger]
        exact hs.ledger

end Machine

end

open Machine in
/-- **The graph of a grammar is well formed, and no number leads out of it.**  This holds for every
grammar, with rules of any steps and clauses, names without a rule and texts that are no patterns.
The analysis looks up no number that is not there; and no request ever starts a parser, waits for a
rule or tells of a rule that is not there, but for a parser that was asked for by its number. -/
theorem graph_well_formed (grammar : Grammar τ) :
    grammar.compile.WellFormed grammar ∧ grammar.compile.Indexed ∧
    ∀ (ignorables : List Pattern) (reader : Reader) (memoize : Bool) (limit : Nat)
      (calls : List Call) (replies : List (Reply τ)) (m : Machine τ) (call : Call) (a : Machine τ),
      (fresh reader memoize).session? grammar.compile ignorables limit calls = some (replies, m) →
      Steps grammar.compile ignorables (m.request grammar.compile call) a →
      (∀ node ∈ a.work, node < grammar.compile.nodes.size ∨ call = .parser node) ∧
      (∀ rule start, .rule rule start ∈ a.frames.items → rule < grammar.compile.rules.size) ∧
      ∀ e ∈ a.events, ∀ rule, e.rule? = some rule → rule < grammar.compile.rules.size := by
  have hg := grammar.compile_indexed
  refine ⟨grammar.compile_wellFormed, hg, ?_⟩
  intro ignorables reader memoize limit calls replies m call a hsession hsteps
  have hidle := fresh_idle (τ := τ) reader memoize
  have hfresh : (fresh (τ := τ) reader memoize).ledger.Indexed grammar.compile := by
    intro e he
    cases he
  have hm : m.Idle := (serves_of_session? hidle hsession).1
  obtain ⟨s, hat, hs⟩ := hsteps.indexed hg hm (indexed_of_session? hg hidle hfresh hsession)
  refine ⟨fun node hnode => ?_, fun rule start hframe => ?_, fun e he => ?_⟩
  · have htask := hat.task
    cases hs' : s.task with
    | start node' =>
      rw [hs'] at htask
      rw [htask.1, List.mem_singleton] at hnode
      subst hnode
      exact hs.task node hs'
    | deliver result =>
      rw [hs'] at htask
      rw [htask.1] at hnode
      cases hnode
  · rw [hat.frames] at hframe
    obtain ⟨node, hexpects⟩ := hs.frames _ hframe
    exact Graph.lt_of_root? hexpects
  · have hledger := hs.ledger
    rw [← hat.ledger] at hledger
    exact hledger e he

end

namespace Tangle

/-- `a ::= b "("`, `b ::= nowhere | "x"`, where nothing is called `nowhere` and `(` is no pattern, and
a second `a` that does not count -/
def grammar : Grammar Unit :=
  ((Grammar.empty.declare (({ name := "a" } : Rule.Draft Unit).call "b" |>.hide "(")).declare
    (({ name := "b" } : Rule.Draft Unit).call "nowhere" |>.or |>.hide "x")).declare
    (({ name := "a" } : Rule.Draft Unit).hide "y")

/-- the block of `b` follows that of `a`, its root is the choice at the end, and the table knows its
number -/
theorem graph_well_formed_of_tangle :
    ∃ entry, grammar.compile.rules[1]? = some entry ∧ entry.name = "b" ∧ entry.root = 7 ∧
      grammar.compile.nodes.size = 8 ∧ grammar.compile.ruleIndex? "b" = some 1 ∧
      (∀ i, grammar.compile.Under entry.root i ↔ 3 ≤ i ∧ i ≤ 7) ∧
      ∃! whole, grammar.compile.Part whole 4 := by
  obtain ⟨hformed, -, -⟩ := graph_well_formed grammar
  have hdefined : (grammar.definitions[1]?).map Rule.name = some "b" := by decide +kernel
  obtain ⟨rule, hrule, hname⟩ := Option.map_eq_some_iff.mp hdefined
  obtain ⟨entry, hentry, hsame⟩ := hformed.entry hrule
  obtain ⟨start, -, hstart, -, -, -, -, -, -, hunder⟩ := hformed.block hentry
  have hroot : (grammar.compile.rules[1]?).map RuleEntry.root = some 7 := by decide +kernel
  have hseen : grammar.compile.starts[1]? = some 3 ∧ grammar.compile.nodes.size = 8 ∧
      ∀ r < grammar.compile.rules.size, grammar.compile.root? r ≠ some 4 := by decide +kernel
  rw [hentry] at hroot
  obtain ⟨hbegins, hsize, hroots⟩ := hseen
  cases hstart.symm.trans hbegins
  refine ⟨entry, hentry, hsame.trans hname, Option.some.inj hroot, hsize,
    hformed.number.mpr ⟨entry, hentry, hsame.trans hname⟩, ?_, (hformed.part (by omega) ?_).1⟩
  · rw [← Option.some.inj hroot]
    exact hunder
  · intro r hr
    exact hroots r (Graph.lt_of_root? hr) hr

end Tangle

end Packrat
