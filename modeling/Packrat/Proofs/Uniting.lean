import Mathlib.Data.List.Induction
import Packrat.Proofs.Shuffle

/-!
# Grammars put together

* `earliest`, `later`   items whose key is new, and those whose key an earlier item has;
* `Grammar.Declared`    a grammar that was made by ignoring, declaring and uniting;
* `Grammar.settled`     a grammar without the rules that do not count;
* `Grammar.compile_eq`  the graph is that of the settled grammar, but for the issues;
* `Grammar.Declared.unite_assoc`, `Grammar.Declared.empty_unite`, `Grammar.unite_empty`
  fragments may be put together in any grouping;
* `first_definition_counts`   so the first definition of a name counts, wherever it comes from.

Repeated text to ignore is left out when it is declared, a repeated rule when the grammar is
compiled; both leave what `earliest` leaves.
-/

namespace Packrat

/-! ## items whose key is new -/

section
variable {α : Type} (key : α → String)

/-- whether some item before place `i` has the key of this one -/
def comesLate (items : List α) (i : Nat) (item : α) : Bool :=
  (items.take i).any fun other => key other == key item

/-- the items of which some earlier item has the key, or else the others, in order -/
def select (late : Bool) (items : List α) : List α :=
  (items.zipIdx.filter fun x => comesLate key items x.2 x.1 == late).map Prod.fst

/-- the items whose key no earlier item has -/
def earliest (items : List α) : List α := select key false items

/-- the items whose key some earlier item has -/
def later (items : List α) : List α := select key true items

variable {key}

/-- what comes after an item does not make it late -/
theorem comesLate_append {items more : List α} {x : α × Nat} (h : x ∈ items.zipIdx) :
    comesLate key (items ++ more) x.2 x.1 = comesLate key items x.2 x.1 := by
  have hlt : x.2 < 0 + items.length := (List.mem_zipIdx h).2.1
  rw [comesLate, comesLate, List.take_append_of_le_length (by omega)]

theorem comesLate_length (items more : List α) (item : α) :
    comesLate key (items ++ more) items.length item =
      items.any fun other => key other == key item := by
  rw [comesLate, List.take_left]

theorem select_snoc (late : Bool) (items : List α) (item : α) :
    select key late (items ++ [item]) =
      if (items.any fun other => key other == key item) = late then select key late items ++ [item]
      else select key late items := by
  have hbefore : items.zipIdx.filter (fun x => comesLate key (items ++ [item]) x.2 x.1 == late) =
      items.zipIdx.filter fun x => comesLate key items x.2 x.1 == late :=
    List.filter_congr fun x hx => by rw [comesLate_append hx]
  have hlast : comesLate key (items ++ [item]) items.length item =
      items.any fun other => key other == key item := comesLate_length items [item] item
  rw [select, List.zipIdx_append, List.filter_append, hbefore, List.map_append, Nat.zero_add]
  show select key late items ++ ([(item, items.length)].filter _).map Prod.fst = _
  split
  · next h => rw [List.filter_cons_of_pos (by simp only [hlast, h, beq_self_eq_true])]; rfl
  · next h =>
    rw [List.filter_cons_of_neg (by simp only [hlast, beq_iff_eq, h, not_false_eq_true])]
    exact List.append_nil _

theorem earliest_snoc (items : List α) (item : α) :
    earliest key (items ++ [item]) =
      if (items.any fun other => key other == key item) then earliest key items
      else earliest key items ++ [item] := by
  rw [earliest, select_snoc, earliest]
  cases (items.any fun other => key other == key item) <;> rfl

/-- every key is kept -/
theorem any_earliest (items : List α) (k : String) :
    ((earliest key items).any fun other => key other == k) = items.any fun other => key other == k := by
  induction items using List.reverseRecOn with
  | nil => rfl
  | append_singleton items item ih =>
    rw [earliest_snoc, List.any_append]
    split
    · next hlate =>
      rw [ih]
      by_cases hk : key item = k
      · subst hk
        rw [hlate, Bool.true_or]
      · simp [hk]
    · rw [List.any_append, ih]

/-- and no key twice -/
theorem nodup_earliest (items : List α) : ((earliest key items).map key).Nodup := by
  induction items using List.reverseRecOn with
  | nil => exact List.nodup_nil
  | append_singleton items item ih =>
    rw [earliest_snoc]
    split
    · exact ih
    · next hnew =>
      rw [← any_earliest] at hnew
      rw [List.map_append, List.map_singleton, ← List.concat_eq_append]
      refine ih.concat fun hmem => hnew ?_
      obtain ⟨other, hother, hkey⟩ := List.mem_map.mp hmem
      exact List.any_eq_true.mpr ⟨other, hother, beq_iff_eq.mpr hkey⟩

theorem earliest_of_nodup {items : List α} (h : (items.map key).Nodup) :
    earliest key items = items := by
  induction items using List.reverseRecOn with
  | nil => rfl
  | append_singleton items item ih =>
    rw [List.map_append, List.map_singleton, List.nodup_append] at h
    obtain ⟨hitems, -, hnew⟩ := h
    have hany : ¬ (items.any fun other => key other == key item) = true := by
      intro hany
      obtain ⟨other, hother, hkey⟩ := List.any_eq_true.mp hany
      exact hnew _ (List.mem_map_of_mem hother) _ List.mem_cons_self (beq_iff_eq.mp hkey)
    rw [earliest_snoc, if_neg hany, ih hitems]

/-- leaving out what is late beforehand makes no difference -/
theorem earliest_earliest_append (front items : List α) :
    earliest key (earliest key front ++ items) = earliest key (front ++ items) := by
  induction items using List.reverseRecOn with
  | nil => rw [List.append_nil, List.append_nil, earliest_of_nodup (nodup_earliest front)]
  | append_singleton items item ih =>
    rw [← List.append_assoc, ← List.append_assoc, earliest_snoc, earliest_snoc, List.any_append,
      List.any_append, any_earliest, ih]

theorem earliest_append_earliest (front items : List α) :
    earliest key (front ++ earliest key items) = earliest key (front ++ items) := by
  induction items using List.reverseRecOn with
  | nil => rfl
  | append_singleton items item ih =>
    rw [earliest_snoc, ← List.append_assoc, earliest_snoc (front ++ items), List.any_append, ← ih]
    split
    · next hlate => rw [hlate, Bool.or_true, if_pos rfl]
    · rw [← List.append_assoc, earliest_snoc, List.any_append, any_earliest]

end

/-! ## rules that count -/

namespace Grammar
variable {τ : Type}

/-- **The rules that count are those whose name is new.** -/
theorem definitions_eq (g : Grammar τ) :
    g.definitions = earliest Rule.name g.rules ∧
      g.duplicates = (later Rule.name g.rules).map Rule.name := by
  obtain ⟨ignorables, rules⟩ := g
  induction rules using List.reverseRecOn with
  | nil => exact ⟨rfl, rfl⟩
  | append_singleton rules rule ih =>
    have hbefore := (Grammar.mk ignorables rules).sound_roll
    have hroll : (Grammar.mk ignorables (rules ++ [rule])).roll =
        (Grammar.mk ignorables rules).roll.add rule := List.foldl_append
    rw [definitions, duplicates] at ih
    rw [definitions, duplicates, hroll, earliest_snoc, later, select_snoc, ← later]
    -- a name is new to the table just if no rule before has it
    have hnames : ((earliest Rule.name rules).any fun r => r.name == rule.name) =
        rules.any fun r => r.name == rule.name := any_earliest rules rule.name
    rw [← ih.1] at hnames
    cases hlate : rules.any fun r => r.name == rule.name with
    | true =>
      rw [hbefore.add_late (hnames.trans hlate), if_pos rfl, if_pos rfl, List.map_append, ← ih.1,
        ← ih.2]
      exact ⟨rfl, rfl⟩
    | false =>
      rw [hbefore.add_new (hnames.trans hlate), if_neg Bool.false_ne_true,
        if_neg Bool.false_ne_true, ← ih.1, ← ih.2]
      exact ⟨rfl, rfl⟩

/-- the rules that count have different names -/
theorem nodup_definitions (g : Grammar τ) : (g.definitions.map Rule.name).Nodup := by
  rw [g.definitions_eq.1]
  exact nodup_earliest g.rules

/-- the grammar without the rules that do not count -/
def settled (g : Grammar τ) : Grammar τ := { g with rules := earliest Rule.name g.rules }

theorem definitions_settled (g : Grammar τ) :
    g.settled.definitions = g.definitions ∧ g.settled.duplicates = [] := by
  have hnodup : (g.settled.rules.map Rule.name).Nodup := nodup_earliest g.rules
  obtain ⟨hdefinitions, hduplicates⟩ := definitions_of_nodup hnodup
  exact ⟨hdefinitions.trans g.definitions_eq.1.symm, hduplicates⟩

/-- **A rule that does not count leaves nothing but its issue.** -/
theorem compile_eq (g : Grammar τ) :
    g.compile = { g.settled.compile with
      issues := (later Rule.name g.rules).map (fun rule => .duplicateRule rule.name) ++
        g.settled.compile.issues } := by
  obtain ⟨hdefinitions, hduplicates⟩ := g.definitions_settled
  have hnumbers : g.settled.roll.numbers = g.roll.numbers := by
    rw [g.settled.sound_roll.table, g.sound_roll.table]
    exact congrArg (fun rules => (rules.map Rule.name).zipIdx.reverse) hdefinitions
  have hindex : g.settled.index = g.index := by
    funext name
    rw [index, index, hnumbers]
  have hnodes : g.settled.nodes = g.nodes := by rw [nodes, nodes, hindex, hdefinitions]
  have hwiring : g.settled.wiringIssues = g.wiringIssues := by
    rw [wiringIssues, wiringIssues, hindex, hdefinitions]
    rfl
  have hignorables : g.settled.ignorablePatterns = g.ignorablePatterns := rfl
  rw [compile, compile, hnodes, hnumbers, hdefinitions, hduplicates, hwiring, hignorables,
    g.definitions_eq.2, List.map_map]
  show _ = Graph.mk _ _ _ _ _
  rw [List.map_nil, List.nil_append, List.append_assoc]
  rfl

/-! ## fragments put together -/

/-- the grammar was made by ignoring, declaring and uniting -/
inductive Declared : Grammar τ → Prop
  | empty : Declared empty
  | ignore {g : Grammar τ} (source : String) : Declared g → Declared (g.ignore source)
  | declare {g : Grammar τ} (draft : Rule.Draft τ) : Declared g → Declared (g.declare draft)
  | unite {g h : Grammar τ} : Declared g → Declared h → Declared (g.unite h)

variable {a b c : Grammar τ}

/-- text that was to be ignored already is left out -/
theorem ignore_ignorables {sources : List String} (h : a.ignorables = earliest id sources)
    (source : String) : (a.ignore source).ignorables = earliest id (sources ++ [source]) := by
  have hany : (sources.any fun other => id other == id source) = a.ignorables.contains source := by
    rw [← any_earliest, ← h, List.contains_eq_any_beq]
    exact congrArg a.ignorables.any (funext fun x => Bool.beq_comm)
  rw [earliest_snoc, hany, ignore, ← h]
  split <;> rfl

theorem foldl_ignore {sources : List String} (h : a.ignorables = earliest id sources)
    (more : List String) : (more.foldl ignore a).ignorables = earliest id (sources ++ more) ∧
      (more.foldl ignore a).rules = a.rules := by
  induction more generalizing a sources with
  | nil => exact ⟨by rw [List.append_nil]; exact h, rfl⟩
  | cons source more ih =>
    have hrules : (a.ignore source).rules = a.rules := by
      rw [ignore]
      split <;> rfl
    obtain ⟨hmore, hrules'⟩ := ih (ignore_ignorables h source)
    rw [List.append_assoc] at hmore
    exact ⟨hmore, hrules'.trans hrules⟩

/-- text to be ignored stands in a grammar once -/
theorem Declared.ignorables (h : a.Declared) : a.ignorables = earliest id a.ignorables := by
  suffices ∃ sources, a.ignorables = earliest id sources by
    obtain ⟨sources, hsources⟩ := this
    have hnodup : ((earliest id sources).map id).Nodup := nodup_earliest sources
    rw [← hsources] at hnodup
    exact (earliest_of_nodup hnodup).symm
  induction h with
  | empty => exact ⟨[], rfl⟩
  | ignore source _ ih =>
    obtain ⟨sources, hsources⟩ := ih
    exact ⟨_, ignore_ignorables hsources source⟩
  | declare draft _ ih => exact ih
  | unite _ _ ih _ =>
    obtain ⟨sources, hsources⟩ := ih
    exact ⟨_, (foldl_ignore hsources _).1⟩

/-- what is ignored in a union, and its rules -/
theorem Declared.unite_eq (ha : a.Declared) (b : Grammar τ) :
    a.unite b = ⟨earliest id (a.ignorables ++ b.ignorables), a.rules ++ b.rules⟩ := by
  obtain ⟨hignorables, hrules⟩ := foldl_ignore ha.ignorables b.ignorables
  rw [← hignorables, ← hrules]
  rfl

theorem Declared.unite_assoc (ha : a.Declared) (hb : b.Declared) :
    (a.unite b).unite c = a.unite (b.unite c) := by
  rw [(ha.unite hb).unite_eq, ha.unite_eq, ha.unite_eq, hb.unite_eq, earliest_earliest_append,
    earliest_append_earliest, List.append_assoc, List.append_assoc]

theorem Declared.empty_unite (ha : a.Declared) : Grammar.empty.unite a = a := by
  rw [Declared.empty.unite_eq]
  show (⟨earliest id a.ignorables, a.rules⟩ : Grammar τ) = a
  rw [← ha.ignorables]

theorem unite_empty (a : Grammar τ) : a.unite empty = a := by
  show (⟨a.ignorables, a.rules ++ []⟩ : Grammar τ) = a
  rw [List.append_nil]

end Grammar

/-- **The first definition of a name counts, however fragments are put together.**  The graph of a
grammar is that of the grammar without the rules whose name occurs earlier: only the issues tell that
there were such rules, one for each and before all others.  Fragments may be put together in any
grouping, the empty grammar adds nothing, and text to be ignored is kept where it first occurs. -/
theorem first_definition_counts {τ : Type} {a b : Grammar τ} (c : Grammar τ) (ha : a.Declared)
    (hb : b.Declared) :
    (a.compile.nodes = a.settled.compile.nodes ∧ a.compile.rules = a.settled.compile.rules ∧
      a.compile.ruleIndex? = a.settled.compile.ruleIndex? ∧
      a.compile.ignorables = a.settled.compile.ignorables ∧
      a.compile.issues = (later Rule.name a.rules).map (fun rule => .duplicateRule rule.name) ++
        a.settled.compile.issues) ∧
    (a.unite b).unite c = a.unite (b.unite c) ∧
    Grammar.empty.unite a = a ∧ a.unite Grammar.empty = a ∧
    ((a.unite b).unite c).ignorables =
      earliest id (a.ignorables ++ b.ignorables ++ c.ignorables) ∧
    ((a.unite b).unite c).ignorables.Nodup ∧
    ((a.unite b).unite c).compile.ignorables =
      (earliest id (a.ignorables ++ b.ignorables ++ c.ignorables)).filterMap
        fun source => (Pattern.anchored source).toOption := by
  have hignorables : ((a.unite b).unite c).ignorables =
      earliest id (a.ignorables ++ b.ignorables ++ c.ignorables) := by
    rw [(ha.unite hb).unite_eq, ha.unite_eq, earliest_earliest_append]
  refine ⟨⟨by rw [a.compile_eq], by rw [a.compile_eq], ?_, by rw [a.compile_eq], by rw [a.compile_eq]⟩,
    ha.unite_assoc hb, ha.empty_unite, a.unite_empty, hignorables, ?_, ?_⟩
  · funext name
    rw [a.compile_eq]
    rfl
  · have hnodup : ((earliest id (a.ignorables ++ b.ignorables ++ c.ignorables)).map id).Nodup :=
      nodup_earliest _
    rw [List.map_id] at hnodup
    rw [hignorables]
    exact hnodup
  · show Grammar.ignorablePatterns _ = _
    rw [Grammar.ignorablePatterns, hignorables]

namespace Fragments

/-- `word ::= "x"`, between spaces -/
def letters : Grammar Unit :=
  (Grammar.empty.ignore " +").declare (({ name := "word" } : Rule.Draft Unit).hide "x")

/-- `word ::= nowhere "("`, where nothing is called `nowhere` and `(` is no pattern, and
`list ::= word*`, between tabs or spaces -/
def words : Grammar Unit :=
  (((Grammar.empty.ignore "\t").ignore " +").declare
    (({ name := "word" } : Rule.Draft Unit).call "nowhere" |>.hide "(")).declare
    (({ name := "list" } : Rule.Draft Unit).many "word")

/-- of the later `word`s and the second `list` nothing but their names is reported -/
theorem first_definition_counts_of_words :
    ((letters.unite words).unite words).compile.issues =
        [.duplicateRule "word", .duplicateRule "word", .duplicateRule "list"] ∧
      (letters.unite words).unite words = letters.unite (words.unite words) ∧
      ((letters.unite words).unite words).ignorables = [" +", "\t"] := by
  have hletters : letters.Declared := .declare _ (.ignore _ .empty)
  have hwords : words.Declared := .declare _ (.declare _ (.ignore _ (.ignore _ .empty)))
  obtain ⟨-, hassoc, -, -, hignorables, -⟩ := first_definition_counts words hletters hwords
  obtain ⟨⟨-, -, -, -, hissues⟩, -⟩ :=
    first_definition_counts Grammar.empty ((hletters.unite hwords).unite hwords) .empty
  refine ⟨hissues.trans ?_, hassoc, hignorables.trans ?_⟩
  · decide +kernel
  · decide +kernel

end Fragments

end Packrat
