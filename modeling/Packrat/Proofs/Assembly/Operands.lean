import Packrat.Proofs.Assembly.Tokens
import Packrat.Proofs.Showing

/-!
# Operands and operations of assembly programs

* `Assembly.Spread`        tokens one after the other, with blanks between them;
* `Assembly.shows_target`, `Assembly.shows_operand`   operands are found where they stand;
* `Assembly.Operation`     two operands with a symbol between them: the family of operators and that
                           of comparisons, each in the order in which they are tried;
* `Assembly.shows_expression`, `Assembly.shows_condition`   expressions and conditions are found where
                           their tokens stand.
-/

namespace Packrat

namespace Assembly

open AssemblyTag (grammar)

/-! ## tokens one after the other -/

/-- the text is a token: it begins with something to be seen -/
def Token (w : List Char) : Prop := ∃ c v, w = c :: v ∧ c ∉ [' ', '\t', '#', '\n', '\r']

/-- nothing, or a single blank -/
inductive Gap : Place → Place → Prop
  | nothing {p : Place} : Gap p p
  | blank {p q : Place} : p.Passes [' '] q → Gap p q

/-- the tokens one after the other, each at once or after a single blank, and each with a clear end -/
inductive Spread : List (List Char) → Place → Place → Prop
  | nil {p : Place} : Spread [] p p
  | cons {w : List Char} {ws : List (List Char)} {p p' q r : Place} : Gap p p' → p'.Passes w q →
      Token w → Clear q.rest → Spread ws q r → Spread (w :: ws) p r

section
variable {w : List Char} {ws : List (List Char)} {p p' q r : Place}

theorem Token.visible (h : Token w) (hp : p.Passes w q) : p.rest.head?.any isGap = false := by
  obtain ⟨c, v, rfl, hc⟩ := h
  simp only [List.mem_cons, not_or] at hc
  rw [hp.rest]
  simp [isGap, hc]

theorem Gap.shown (h : Gap p p') (hw : Token w) (hp : p'.Passes w q) : shown p = p' := by
  have hvisible := hw.visible hp
  cases h with
  | nothing => exact shown_of_visible hvisible
  | blank hblank => exact shown_blank hblank hvisible

theorem Spread.uncons (h : Spread (w :: ws) p r) :
    ∃ q, (Assembly.shown p).Passes w q ∧ Clear q.rest ∧ Spread ws q r := by
  cases h with
  | cons hgap hp hw hq hrest =>
    have hshown := hgap.shown hw hp
    rw [hshown]
    exact ⟨_, hp, hq, hrest⟩

theorem Spread.offset_le (h : Spread ws p r) : p.offset ≤ r.offset := by
  induction h with
  | nil => exact Nat.le_refl _
  | cons hgap hp _ _ _ ih =>
    have hle := Nat.le_trans (Place.offset_le hp.le) ih
    cases hgap with
    | nothing => exact hle
    | blank hblank => exact Nat.le_trans (Place.offset_le hblank.le) hle

theorem Spread.eq (h : Spread [] p q) : q = p := by
  cases h
  rfl

theorem Spread.single (h : Spread [w] p r) : (Assembly.shown p).Passes w r ∧ Clear r.rest := by
  obtain ⟨q, hp, hq, hrest⟩ := h.uncons
  obtain rfl := hrest.eq
  exact ⟨hp, hq⟩

theorem Spread.split (ws : List (List Char)) {vs : List (List Char)}
    (h : Spread (ws ++ vs) p r) : ∃ q, Spread ws p q ∧ Spread vs q r := by
  induction ws generalizing p with
  | nil => exact ⟨p, .nil, h⟩
  | cons w ws ih =>
    cases h with
    | cons hgap hp hw hq hrest =>
      obtain ⟨q', hws, hvs⟩ := ih hrest
      exact ⟨q', .cons hgap hp hw hq hws, hvs⟩

/-- a clear end is none of a token, so there is a blank between one token and the next -/
theorem Spread.pair {v : List Char} (h : Spread [v, w] p r) :
    ∃ q q', (Assembly.shown p).Passes v q ∧ q.Passes [' '] q' ∧ q'.Passes w r ∧ Clear r.rest := by
  obtain ⟨q, hp, hq, hrest⟩ := h.uncons
  cases hrest with
  | cons hgap hp' hw hr hnil =>
    obtain rfl := hnil.eq
    cases hgap with
    | nothing =>
      -- the second token would begin with something that is no clear end of the first
      obtain ⟨c, v, rfl, hc⟩ := hw
      have hhead : q.rest.head? = some c := by rw [hp'.rest]; rfl
      exact absurd (List.mem_append_left ['\r'] (hq c hhead)) hc
    | blank hblank => exact ⟨q, _, hp, hblank, hp', hr⟩

end

/-! ## operands -/

namespace Store

def name : Store → String
  | accumulator => "accumulator"
  | register => "register"
  | address => "address"

def clause (x : Store) : Clause AssemblyTag where
  steps := [.leaf x.source (.capture x.tag)]

theorem rule?_name (x : Store) : grammar.rule? x.name = some ⟨x.name, [x.clause]⟩ := by
  cases x <;> rfl

end Store

/-- the rules of stores, in the order in which they are tried -/
def storeNames : List String := ["accumulator", "register", "address"]

section
variable {p q : Place} {t : Target} {a b : Operand}

theorem misses_store {x : Store} (h : ¬ x.mark <+: (shown p).rest) :
    grammar.Misses ignorables x.name p := by
  refine Grammar.misses_of_fails x.rule?_name (List.forall_mem_singleton.mpr ?_)
  exact (Grammar.breaks_leaf (anchored_store x) (look_store_eq_none h)).fails

theorem shows_store (h : Spread [t.text] p q) :
    grammar.Shows ignorables t.store.name p t.tree q := by
  obtain ⟨hp, hq⟩ := h.single
  obtain ⟨m, hlook, hm⟩ := look_store hp hq
  have hlists : grammar.Lists ignorables t.store.clause.steps p [t.tree] q :=
    Grammar.lists_capture (anchored_store t.store) hlook hm (grammar.lists_nil q)
  have hforms := hlists.forms_single rfl
  exact Grammar.shows_of_forms [] t.store.rule?_name (List.forall_mem_nil _) hforms

/-- two stores never begin alike, so those before that of the target miss -/
theorem exists_before (h : Spread [t.text] p q) :
    ∃ before after, storeNames = before ++ t.store.name :: after ∧
      ∀ name ∈ before, grammar.Misses ignorables name p := by
  have hrest : (shown p).rest = t.store.mark ++ (t.index.text ++ q.rest) := by
    rw [h.single.1.rest, Target.text, List.append_assoc]
  have hmiss : ∀ x : Store, ¬ x.mark <+: t.store.mark ++ (t.index.text ++ q.rest) →
      grammar.Misses ignorables x.name p := by
    intro x hx
    refine misses_store ?_
    rw [hrest]
    exact hx
  cases hstore : t.store with
  | accumulator => exact ⟨[], _, rfl, List.forall_mem_nil _⟩
  | register =>
    refine ⟨["accumulator"], _, rfl, List.forall_mem_singleton.mpr (hmiss .accumulator ?_)⟩
    simp [hstore, Store.mark, List.cons_prefix_cons]
  | address =>
    refine ⟨["accumulator", "register"], _, rfl, List.forall_mem_cons.mpr
      ⟨hmiss .accumulator ?_, List.forall_mem_singleton.mpr (hmiss .register ?_)⟩⟩
    · simp [hstore, Store.mark, List.cons_prefix_cons]
    · simp [hstore, Store.mark, List.cons_prefix_cons]

def targetClause : Clause AssemblyTag where
  steps := [.anyOf storeNames]

theorem rule?_target : grammar.rule? "target" = some ⟨"target", [targetClause]⟩ := rfl

theorem shows_target (h : Spread [t.text] p q) :
    grammar.Shows ignorables "target" p t.tree q := by
  obtain ⟨before, after, hnames, hbefore⟩ := exists_before h
  have hlists : grammar.Lists ignorables targetClause.steps p [t.tree] q := by
    show grammar.Lists ignorables [.anyOf storeNames] p [t.tree] q
    rw [hnames]
    exact (shows_store h).lists_anyOf before hbefore
  have hforms := hlists.forms_single rfl
  exact Grammar.shows_of_forms [] rule?_target (List.forall_mem_nil _) hforms

def operandClause : Clause AssemblyTag where
  steps := [.anyOf (storeNames ++ ["number"])]

theorem rule?_operand : grammar.rule? "operand" = some ⟨"operand", [operandClause]⟩ := rfl

def numberClause : Clause AssemblyTag where
  steps := [.leaf "-?\\d+" (.capture .number)]

theorem rule?_number : grammar.rule? "number" = some ⟨"number", [numberClause]⟩ := rfl

theorem shows_number {negative : Bool} {n : Digits}
    (h : Spread [(Operand.number negative n).text] p q) :
    grammar.Shows ignorables "number" p (Operand.number negative n).tree q := by
  obtain ⟨hp, hq⟩ := h.single
  obtain ⟨m, hlook, hm⟩ := look_number hp hq
  have hlists : grammar.Lists ignorables numberClause.steps p [(Operand.number negative n).tree] q :=
    Grammar.lists_capture anchored_number hlook hm (grammar.lists_nil q)
  have hforms := hlists.forms_single rfl
  exact Grammar.shows_of_forms [] rule?_number (List.forall_mem_nil _) hforms

/-- neither a sign nor a digit begins a store -/
theorem misses_stores {negative : Bool} {n : Digits}
    (h : Spread [(Operand.number negative n).text] p q) :
    ∀ name ∈ storeNames, grammar.Misses ignorables name p := by
  obtain ⟨c, v, htext, hc⟩ : ∃ c v, (Operand.number negative n).text = c :: v ∧
      c ∉ ['a', 'r', '@'] := by
    cases negative with
    | true => exact ⟨'-', n.text, rfl, by decide⟩
    | false =>
      obtain ⟨d, ds, hd⟩ := List.exists_cons_of_ne_nil n.some
      have hdigit : isDecimalDigit d = true := n.all d (by rw [hd]; exact List.mem_cons_self)
      refine ⟨d, ds, hd, fun hmem => ?_⟩
      simp only [List.mem_cons, List.not_mem_nil, or_false] at hmem
      rcases hmem with rfl | rfl | rfl <;> exact absurd hdigit (by decide)
  have hmiss : ∀ x : Store, grammar.Misses ignorables x.name p := by
    intro x
    refine misses_store ?_
    rw [h.single.1.rest, htext]
    simp only [List.mem_cons, List.not_mem_nil, or_false, not_or] at hc
    cases x <;> simp [Store.mark, List.cons_prefix_cons, Ne.symm hc.1, Ne.symm hc.2.1,
      Ne.symm hc.2.2]
  simp only [storeNames, List.forall_mem_cons]
  exact ⟨hmiss .accumulator, hmiss .register, hmiss .address, List.forall_mem_nil _⟩

theorem shows_operand (h : Spread [a.text] p q) :
    grammar.Shows ignorables "operand" p a.tree q := by
  have hlists : grammar.Lists ignorables operandClause.steps p [a.tree] q := by
    cases a with
    | target t =>
      obtain ⟨before, after, hnames, hbefore⟩ := exists_before (t := t) h
      show grammar.Lists ignorables [.anyOf (storeNames ++ ["number"])] p [t.tree] q
      rw [hnames, List.append_assoc]
      exact (shows_store h).lists_anyOf before hbefore
    | number negative n => exact (shows_number h).lists_anyOf storeNames (misses_stores h)
  have hforms := hlists.forms_single rfl
  exact Grammar.shows_of_forms [] rule?_operand (List.forall_mem_nil _) hforms

theorem isSome_tag_target (t : Target) : t.tree.tag.isSome = true := rfl

theorem isSome_tag_operand (a : Operand) : a.tree.tag.isSome = true := by
  cases a <;> rfl

/-! ## operations -/

/-- two operands with a symbol between them -/
structure Operation where
  source : String
  text : List Char
  tag : AssemblyTag

namespace Operation

def clause (o : Operation) : Clause AssemblyTag where
  steps := [.call "operand", .leaf o.source .hide, .call "operand"]
  shape := some (.splice (some o.tag))

/-- the source spells the text -/
def Spelled (o : Operation) : Prop :=
  Pattern.anchored o.source = .ok (symbolPattern o.source o.text) ∧
    ∃ c ds, o.text = c :: ds ∧ isGap c = false

variable {o : Operation} {r : Place}

theorem fails (hspelled : o.Spelled) (ha : grammar.Shows ignorables "operand" p a.tree q)
    (h : ¬ o.text <+: (shown q).rest) : grammar.Fails ignorables o.clause p := by
  obtain ⟨hanchored, c, ds, htext, hc⟩ := hspelled
  rw [htext] at h hanchored
  have hlook := look_symbol_eq_none o.source hc h
  have hbreaks : grammar.Breaks ignorables o.clause.steps p :=
    ha.breaks (Grammar.breaks_leaf hanchored hlook)
  exact hbreaks.fails

theorem forms (hspelled : o.Spelled) (h : Spread [a.text, o.text, b.text] p r) :
    grammar.Forms ignorables o.clause p (.branch (some o.tag) [a.tree, b.tree]) r := by
  obtain ⟨q, ha, hrest⟩ := Spread.split [a.text] h
  obtain ⟨q', hq', -, hb⟩ := hrest.uncons
  obtain ⟨hanchored, c, ds, htext, hc⟩ := hspelled
  rw [htext] at hq' hanchored
  obtain ⟨m, hlook⟩ := look_symbol o.source hc hq'
  have hlists : grammar.Lists ignorables o.clause.steps p [a.tree, b.tree] r :=
    (shows_operand ha).lists (Grammar.lists_hide hanchored hlook
      ((shows_operand hb).lists (grammar.lists_nil r)))
  refine hlists.forms rfl ?_
  simp [isSome_tag_operand]

/-- the operations before the one that is written have to fail -/
theorem shows {name : String} {before after : List Operation} {others : List (Clause AssemblyTag)}
    (hrule : grammar.rule? name = some ⟨name, (before ++ o :: after).map clause ++ others⟩)
    (hspelled : ∀ o' ∈ o :: before, o'.Spelled)
    (hbefore : ∀ o' ∈ before, ∀ rest, Clear rest → ¬ o'.text <+: o.text ++ rest)
    (h : Spread [a.text, o.text, b.text] p r) :
    grammar.Shows ignorables name p (.branch (some o.tag) [a.tree, b.tree]) r := by
  obtain ⟨ho, hspelled⟩ := List.forall_mem_cons.mp hspelled
  rw [List.map_append, List.map_cons, List.append_assoc] at hrule
  refine Grammar.shows_of_forms (before.map clause) hrule ?_ (forms ho h)
  intro c hc
  obtain ⟨o', ho', rfl⟩ := List.mem_map.mp hc
  obtain ⟨q, ha, hrest⟩ := Spread.split [a.text] h
  obtain ⟨q', hq', hclear, -⟩ := hrest.uncons
  refine fails (hspelled o' ho') (shows_operand ha) ?_
  rw [hq'.rest]
  exact hbefore o' ho' q'.rest hclear

end Operation

namespace Operator

/-- the operator as it is spelled in a pattern -/
def source : Operator → String
  | add => "\\+"
  | sub => "-"
  | mul => "\\*"
  | div => "/"
  | mod => "%"

def operation (op : Operator) : Operation := ⟨op.source, op.text, op.tag⟩

theorem spelled (op : Operator) : op.operation.Spelled := by
  cases op <;> exact ⟨rfl, _, _, rfl, by decide⟩

/-- in the order in which they are tried -/
def all : List Operator := [add, sub, mul, div, mod]

theorem not_prefix {o op : Operator} (h : o ≠ op) (rest : List Char) :
    ¬ o.text <+: op.text ++ rest := by
  cases o <;> cases op <;> simp_all [text, List.cons_prefix_cons]

theorem exists_earlier (op : Operator) :
    ∃ before after, all = before ++ op :: after ∧ ∀ o ∈ before, o ≠ op := by
  cases op with
  | add => exact ⟨[], _, rfl, by decide⟩
  | sub => exact ⟨[add], _, rfl, by decide⟩
  | mul => exact ⟨[add, sub], _, rfl, by decide⟩
  | div => exact ⟨[add, sub, mul], _, rfl, by decide⟩
  | mod => exact ⟨[add, sub, mul, div], _, rfl, by decide⟩

end Operator

namespace Comparison

def source : Comparison → String
  | equal => "=="
  | notEqual => "!="
  | lessEqual => "<="
  | greaterEqual => ">="
  | less => "<"
  | greater => ">"

def operation (op : Comparison) : Operation := ⟨op.source, op.text, op.tag⟩

theorem spelled (op : Comparison) : op.operation.Spelled := by
  cases op <;> exact ⟨rfl, _, _, rfl, by decide⟩

def all : List Comparison := [equal, notEqual, lessEqual, greaterEqual, less, greater]

/-- a longer comparison is tried before the one that it begins with -/
def Late (o op : Comparison) : Prop := o = less ∧ op = lessEqual ∨ o = greater ∧ op = greaterEqual

instance (o op : Comparison) : Decidable (o.Late op) :=
  inferInstanceAs (Decidable (o = less ∧ op = lessEqual ∨ o = greater ∧ op = greaterEqual))

theorem not_prefix {o op : Comparison} (h : o ≠ op) (hlate : ¬ o.Late op) {rest : List Char}
    (hrest : Clear rest) : ¬ o.text <+: op.text ++ rest := by
  -- `<` and `<=` begin alike, and so do `>` and `>=`: what is late or unclear is left out
  have hequal : ¬ ['='] <+: rest := by
    rintro ⟨more, rfl⟩
    exact absurd (hrest '=' rfl) (by decide)
  cases o <;> cases op <;> simp_all [text, List.cons_prefix_cons, Late]

theorem exists_earlier (op : Comparison) :
    ∃ before after, all = before ++ op :: after ∧ ∀ o ∈ before, o ≠ op ∧ ¬ o.Late op := by
  cases op with
  | equal => exact ⟨[], _, rfl, by decide⟩
  | notEqual => exact ⟨[equal], _, rfl, by decide⟩
  | lessEqual => exact ⟨[equal, notEqual], _, rfl, by decide⟩
  | greaterEqual => exact ⟨[equal, notEqual, lessEqual], _, rfl, by decide⟩
  | less => exact ⟨[equal, notEqual, lessEqual, greaterEqual], _, rfl, by decide⟩
  | greater => exact ⟨[equal, notEqual, lessEqual, greaterEqual, less], _, rfl, by decide⟩

end Comparison

def singleClause : Clause AssemblyTag where
  steps := [.call "operand"]

theorem rule?_expr : grammar.rule? "expr" =
    some ⟨"expr", (Operator.all.map Operator.operation).map Operation.clause ++ [singleClause]⟩ := rfl

theorem rule?_condition : grammar.rule? "condition" =
    some ⟨"condition", (Comparison.all.map Comparison.operation).map Operation.clause ++ []⟩ := rfl

theorem shows_binary {op : Operator} (h : Spread [a.text, op.text, b.text] p q) :
    grammar.Shows ignorables "expr" p (.branch (some op.tag) [a.tree, b.tree]) q := by
  obtain ⟨before, after, hall, hbefore⟩ := op.exists_earlier
  have hrule := rule?_expr
  rw [hall, List.map_append, List.map_cons] at hrule
  refine Operation.shows (o := op.operation) hrule ?_ ?_ h
  · refine List.forall_mem_cons.mpr ⟨op.spelled, fun o ho => ?_⟩
    obtain ⟨o, -, rfl⟩ := List.mem_map.mp ho
    exact o.spelled
  · intro o ho rest _
    obtain ⟨o, hmem, rfl⟩ := List.mem_map.mp ho
    exact Operator.not_prefix (hbefore o hmem) rest

theorem shows_condition {c : Condition} (h : Spread c.tokens p q) :
    grammar.Shows ignorables "condition" p c.tree q := by
  obtain ⟨before, after, hall, hbefore⟩ := c.op.exists_earlier
  have hrule := rule?_condition
  rw [hall, List.map_append, List.map_cons] at hrule
  refine Operation.shows (o := c.op.operation) hrule ?_ ?_ h
  · refine List.forall_mem_cons.mpr ⟨c.op.spelled, fun o ho => ?_⟩
    obtain ⟨o, -, rfl⟩ := List.mem_map.mp ho
    exact o.spelled
  · intro o ho rest hrest
    obtain ⟨o, hmem, rfl⟩ := List.mem_map.mp ho
    exact Comparison.not_prefix (hbefore o hmem).1 (hbefore o hmem).2 hrest

/-- after a statement comes the end of its row, or a label -/
def Ends (q : Place) : Prop := ∀ c, (shown q).rest.head? = some c → c = '\n' ∨ c = ':'

theorem shows_single (h : Spread [a.text] p q) (hq : Ends q) :
    grammar.Shows ignorables "expr" p a.tree q := by
  have ha := shows_operand h
  have hlists : grammar.Lists ignorables singleClause.steps p [a.tree] q :=
    ha.lists (grammar.lists_nil q)
  -- all operations are tried before, and none of them finds its symbol after the operand
  refine Grammar.shows_of_forms _ rule?_expr ?_ (hlists.forms_single rfl)
  intro c hc
  obtain ⟨o, ho, rfl⟩ := List.mem_map.mp hc
  obtain ⟨op, -, rfl⟩ := List.mem_map.mp ho
  refine Operation.fails op.spelled ha ?_
  rintro ⟨more, hmore⟩
  have hhead : (shown q).rest.head? = op.text.head? := by
    rw [← hmore]
    cases op <;> rfl
  cases op <;> rcases hq _ hhead with hc | hc <;> cases hc

theorem shows_expression {e : Expression} (h : Spread e.tokens p q) (hq : Ends q) :
    grammar.Shows ignorables "expr" p e.tree q := by
  cases e with
  | single a => exact shows_single h hq
  | binary op a b => exact shows_binary h

theorem isSome_tag_expression (e : Expression) : e.tree.tag.isSome = true := by
  cases e with
  | single a => exact isSome_tag_operand a
  | binary op a b => rfl

end

end Assembly

end Packrat
