import Packrat.Proofs.Arithmetic.Numbers
import Packrat.Proofs.Matching

/-!
# The rules of arithmetic expressions

The rules of the grammar by operators and levels, and one law for each way in which they match or
fail.

* `Arithmetic.Operator.rule?_name`, `Arithmetic.Operator.rule?_tailName`, `Arithmetic.rule?_atom`
                        the rules;
* `Arithmetic.Follows`  the operands after the first one;
* `Arithmetic.finds_one`, `Arithmetic.finds_several`   a list with one operand, and with several;
* `Arithmetic.finds_number`, `Arithmetic.finds_group`, `Arithmetic.finds_negated`   the atoms.
-/

namespace Packrat

namespace Arithmetic

/-! ## the grammar -/

/-- the name of a level -/
def Level.name : Level → String
  | .list .plus => "sum"
  | .list .minus => "diff"
  | .list .times => "prod"
  | .list .divided => "quot"
  | .atom => "atom"

namespace Operator

/-- the name of the lists with the operator -/
def name (op : Operator) : String := (Level.list op).name

/-- the operator as it is spelled in a pattern -/
def source : Operator → String
  | plus => "\\+"
  | minus => "-"
  | times => "\\*"
  | divided => "/"

/-- an operand and at least one more -/
def severalClause (op : Operator) : Clause Arithmetic where
  steps := [.call op.operand.name, .repetition (tailName op.name) .oneOrMore (.splice none)]
  shape := some (.splice (some op.tag))

/-- an operand alone -/
def oneClause (op : Operator) : Clause Arithmetic where
  steps := [.call op.operand.name]

/-- the operator and an operand -/
def tailClause (op : Operator) : Clause Arithmetic where
  steps := [.leaf op.source .hide, .call op.operand.name]

theorem rule?_name (op : Operator) :
    grammar.rule? op.name = some ⟨op.name, [op.severalClause, op.oneClause]⟩ := by
  cases op <;> rfl

theorem rule?_tailName (op : Operator) :
    grammar.rule? (tailName op.name) = some ⟨tailName op.name, [op.tailClause]⟩ := by
  cases op <;> rfl

theorem isSymbol (op : Operator) : Pattern.IsSymbol op.source op.symbol := by
  cases op <;> exact ⟨rfl, by decide⟩

end Operator

/-- a number -/
def numberClause : Clause Arithmetic where
  steps := [.leaf "\\d+(?:\\.\\d+)?" (.capture .number)]

/-- a sum in parentheses -/
def groupClause : Clause Arithmetic where
  steps := [.leaf "\\(" .hide, .call "sum", .leaf "\\)" .hide]
  shape := some .first

/-- a negated atom -/
def negatedClause : Clause Arithmetic where
  steps := [.leaf "-" .hide, .call "atom"]
  shape := some (.splice (some .neg))

theorem rule?_atom : grammar.rule? "atom" =
    some ⟨"atom", [numberClause, groupClause, negatedClause]⟩ := rfl

variable {p q q' q'' : Place} {t u : Tree Arithmetic} {ts : List (Tree Arithmetic)} {op : Operator}

/-! ## an operator and an operand -/

theorem joins_tail (op : Operator) :
    grammar.Joins (tailName op.name) op.operand.name op.symbol :=
  ⟨op.source, tailName op.name, op.isSymbol, op.rule?_tailName⟩

theorem misses_tail_of_symbol (h : p.next? ≠ some op.symbol) :
    grammar.Misses [.blank] (tailName op.name) p :=
  (joins_tail op).misses_of_symbol h

theorem misses_tail_of_operand (hop : p.Takes [op.symbol] q)
    (h : grammar.Misses [.blank] op.operand.name q) :
    grammar.Misses [.blank] (tailName op.name) p :=
  (joins_tail op).misses_of_item hop h

/-! ## lists -/

/-- operands with the operator before each, as many as there are -/
def Follows (op : Operator) (p : Place) (ts : List (Tree Arithmetic)) (q : Place) : Prop :=
  grammar.Repeats [.blank] (tailName op.name) p (ts.map fun t => .branch none [t]) ts.length q

theorem follows_nil (h : grammar.Misses [.blank] (tailName op.name) p) : Follows op p [] p :=
  .stop h

theorem Follows.cons (hop : p.Takes [op.symbol] q)
    (h : grammar.Finds [.blank] op.operand.name q (.kept t) q') (ht : t.spliced = [t])
    (hlt : p.offset < q'.offset) (hmore : Follows op q' ts q'') : Follows op p (t :: ts) q'' :=
  (joins_tail op).follows hop h ht hlt hmore

theorem misses_list (h : grammar.Misses [.blank] op.operand.name p) :
    grammar.Misses [.blank] op.name p := by
  refine Grammar.misses_of_fails op.rule?_name (List.forall_mem_cons.mpr ⟨?_, ?_⟩)
  · exact Grammar.Breaks.fails h.breaks
  · exact List.forall_mem_singleton.mpr (Grammar.Breaks.fails h.breaks)

/-- without a second operand, the first clause goes back and the second one matches -/
theorem finds_one (h : grammar.Finds [.blank] op.operand.name p (.kept t) q)
    (hno : Follows op q [] q) : grammar.Finds [.blank] op.name p (.kept t) q := by
  -- the operand is read twice, once for each clause
  have hseveral : grammar.Breaks [.blank] op.severalClause.steps p :=
    h.breaks (hno.breaks Nat.one_pos)
  have hone : grammar.Runs [.blank] op.oneClause.steps p [t] q := h.runs (grammar.runs_nil q)
  refine Grammar.finds_of_gives [op.severalClause] op.rule?_name ?_ hone.gives
  exact List.forall_mem_singleton.mpr hseveral.fails

/-- the groups of a list dissolve, so that its operands are the children of one node -/
theorem finds_several (h : grammar.Finds [.blank] op.operand.name p (.kept t) q)
    (ht : t.spliced = [t]) (hmore : Follows op q (u :: ts) q') :
    grammar.Finds [.blank] op.name p (.kept (.branch (some op.tag) (t :: u :: ts))) q' := by
  have hcount : Bound.oneOrMore.least ≤ (u :: ts).length := Nat.succ_pos _
  have hgroup : grammar.Runs [.blank] [.repetition (tailName op.name) .oneOrMore (.splice none)] q
      [.branch none (u :: ts)] q' :=
    Grammar.Follows.runs hmore hcount (grammar.runs_nil q')
  have hsteps : grammar.Runs [.blank] op.severalClause.steps p [t, .branch none (u :: ts)] q' :=
    h.runs hgroup
  have hgives := hsteps.gives
  have hshape : op.severalClause.assembly.apply [t, .branch none (u :: ts)] =
      .kept (.branch (some op.tag) (t :: u :: ts)) := by
    show Fragment.kept (Tree.branch (some op.tag) (t.spliced ++ ((u :: ts) ++ []))) = _
    rw [ht, List.append_nil]
    rfl
  rw [hshape] at hgives
  exact Grammar.finds_of_gives [] op.rule?_name (fun _ hc => nomatch hc) hgives

/-! ## atoms -/

theorem isSymbol_opening : Pattern.IsSymbol "\\(" '(' := ⟨rfl, by decide⟩

theorem isSymbol_closing : Pattern.IsSymbol "\\)" ')' := ⟨rfl, by decide⟩

theorem isSymbol_minus : Pattern.IsSymbol "-" '-' := ⟨rfl, by decide⟩

theorem fails_number (h : p.next?.any isDecimalDigit = false) :
    grammar.Fails [.blank] numberClause p :=
  Grammar.Breaks.fails fun _ => ⟨_, .fail (.miss anchored_number (look?_number_eq_none h))⟩

theorem fails_group (h : p.next? ≠ some '(') : grammar.Fails [.blank] groupClause p :=
  (Grammar.breaks_symbol isSymbol_opening h).fails

theorem fails_negated (h : p.next? ≠ some '-') : grammar.Fails [.blank] negatedClause p :=
  (Grammar.breaks_symbol isSymbol_minus h).fails

theorem misses_atom (hnumber : grammar.Fails [.blank] numberClause p)
    (hgroup : grammar.Fails [.blank] groupClause p)
    (hnegated : grammar.Fails [.blank] negatedClause p) : grammar.Misses [.blank] "atom" p := by
  refine Grammar.misses_of_fails rule?_atom ?_
  simp only [List.forall_mem_cons]
  exact ⟨hnumber, hgroup, hnegated, fun _ hc => nomatch hc⟩

theorem finds_number {found : Match} (h : ∀ f, (Reader.mk p f).look? [.blank] numberPattern =
    some (found, ⟨q, max f q.offset⟩)) :
    grammar.Finds [.blank] "atom" p (.kept (.leaf (some .number) found.captured found.span)) q := by
  have hsteps : grammar.Runs [.blank] numberClause.steps p
      [.leaf (some .number) found.captured found.span] q :=
    fun f => ⟨_, .next _ (some []) (.leaf anchored_number (h f)) .nil⟩
  exact Grammar.finds_of_gives [] rule?_atom (fun _ hc => nomatch hc) hsteps.gives

/-! An opening parenthesis and a minus sign are no digits, so the clauses before theirs fail. -/

theorem fails_number_of_takes {c : Char} (hp : p.Takes [c] q) (hc : isWhiteSpace c = false)
    (hdigit : isDecimalDigit c = false) : grammar.Fails [.blank] numberClause p := by
  refine fails_number ?_
  rw [hp.next? hc]
  exact hdigit

theorem finds_group (hopen : p.Takes ['('] q) (h : grammar.Finds [.blank] "sum" q (.kept t) q')
    (hclose : q'.Takes [')'] q'') : grammar.Finds [.blank] "atom" p (.kept t) q'' := by
  have hsteps : grammar.Runs [.blank] groupClause.steps p [t] q'' :=
    Grammar.runs_symbol isSymbol_opening hopen
      (h.runs (Grammar.runs_symbol isSymbol_closing hclose (grammar.runs_nil q'')))
  refine Grammar.finds_of_gives [numberClause] rule?_atom ?_ hsteps.gives
  refine List.forall_mem_singleton.mpr ?_
  exact fails_number_of_takes hopen isSymbol_opening.visible (by decide)

theorem finds_negated (hminus : p.Takes ['-'] q) (h : grammar.Finds [.blank] "atom" q (.kept t) q')
    (ht : t.spliced = [t]) :
    grammar.Finds [.blank] "atom" p (.kept (.branch (some .neg) [t])) q' := by
  have hsteps : grammar.Runs [.blank] negatedClause.steps p [t] q' :=
    Grammar.runs_symbol isSymbol_minus hminus (h.runs (grammar.runs_nil q'))
  have hgives := hsteps.gives
  have hshape : negatedClause.assembly.apply [t] = .kept (.branch (some .neg) [t]) := by
    show Fragment.kept (Tree.branch (some .neg) (t.spliced ++ [])) = _
    rw [ht]
    rfl
  rw [hshape] at hgives
  have hnumber := fails_number_of_takes hminus isSymbol_minus.visible (by decide)
  have hgroup : grammar.Fails [.blank] groupClause p :=
    fails_group (by rw [hminus.next? isSymbol_minus.visible]; decide)
  refine Grammar.finds_of_gives [numberClause, groupClause] rule?_atom ?_ hgives
  exact List.forall_mem_cons.mpr ⟨hnumber, List.forall_mem_singleton.mpr hgroup⟩

end Arithmetic

end Packrat
