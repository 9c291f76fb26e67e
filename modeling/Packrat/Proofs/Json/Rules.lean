import Packrat.Proofs.Json.Tokens
import Packrat.Proofs.Matching

/-!
# The rules of JSON documents

The rules of the grammar by kinds and containers, and one law for each way in which they match or
fail.

* `Json.finds_string`, `Json.finds_number`, `Json.finds_word`   the rules of one token;
* `Json.finds_items`    the items of a container, and `Json.finds_empty`, `Json.finds_filled` the
                        container around them;
* `Json.finds_property`, `Json.finds_value`   properties, and the choice among values.
-/

namespace Packrat

namespace Json

open JsonTag (grammar)

/-! ## the grammar -/

def Kind.name : Kind → String
  | value => "value"
  | property => "property"

namespace Container

def name : Container → String
  | object => "object"
  | array => "array"

def itemsName : Container → String
  | object => "members"
  | array => "elements"

def moreName : Container → String
  | object => "more_members"
  | array => "more_elements"

/-- the symbols as they are spelled in a pattern -/
def openingSource : Container → String
  | object => "\\\x7b"
  | array => "\\["

def closingSource : Container → String
  | object => "\\\x7d"
  | array => "\\]"

def wholeClause (c : Container) : Clause JsonTag where
  steps := [.leaf c.openingSource .hide, .maybe c.itemsName, .leaf c.closingSource .hide]
  shape := some (.splice (some c.tag))

def itemsClause (c : Container) : Clause JsonTag where
  steps := [.call c.item.name, .repetition c.moreName .zeroOrMore (.splice none)]

theorem rule?_name (c : Container) : grammar.rule? c.name = some ⟨c.name, [c.wholeClause]⟩ := by
  cases c <;> rfl

theorem rule?_itemsName (c : Container) :
    grammar.rule? c.itemsName = some ⟨c.itemsName, [c.itemsClause]⟩ := by
  cases c <;> rfl

theorem isSymbol_opening (c : Container) : Pattern.IsSymbol c.openingSource c.opening := by
  cases c <;> exact ⟨rfl, by decide⟩

theorem isSymbol_closing (c : Container) : Pattern.IsSymbol c.closingSource c.closing := by
  cases c <;> exact ⟨rfl, by decide⟩

end Container

theorem isSymbol_comma : Pattern.IsSymbol "," ',' := ⟨rfl, by decide⟩

theorem isSymbol_colon : Pattern.IsSymbol ":" ':' := ⟨rfl, by decide⟩

theorem joins_more (c : Container) : grammar.Joins c.moreName c.item.name ',' := by
  cases c <;> exact ⟨",", _, isSymbol_comma, rfl⟩

def propertyClause : Clause JsonTag where
  steps := [.call "string", .leaf ":" .hide, .call "value"]
  shape := some (.splice (some .property))

theorem rule?_property : grammar.rule? "property" = some ⟨"property", [propertyClause]⟩ := rfl

def stringClause : Clause JsonTag where
  steps := [.leaf JsonTag.stringPattern (.capture .string)]

theorem rule?_string : grammar.rule? "string" = some ⟨"string", [stringClause]⟩ := rfl

def numberClause : Clause JsonTag where
  steps := [.leaf JsonTag.numberPattern (.capture .number)]

theorem rule?_number : grammar.rule? "number" = some ⟨"number", [numberClause]⟩ := rfl

def wordClause (x : Word) : Clause JsonTag where
  steps := [.leaf x.source (.keyword x.tag)]

theorem rule?_literal : grammar.rule? "literal" =
    some ⟨"literal", [wordClause .trueWord, wordClause .falseWord, wordClause .nullWord]⟩ := rfl

/-- the rules of values, in the order in which they are tried -/
def valueNames : List String := ["object", "array", "string", "number", "literal"]

def valueClause : Clause JsonTag where
  steps := [.anyOf valueNames]

theorem rule?_value : grammar.rule? "value" = some ⟨"value", [valueClause]⟩ := rfl

variable {p q q' q'' : Place} {t u : Tree JsonTag} {ts : List (Tree JsonTag)} {c : Container}
  {m : Match}

/-! ## rules of one token -/

theorem finds_string (h : lookAlong? [.blank] stringPattern p.rest p = some (m, q)) :
    grammar.Finds [.blank] "string" p (.kept (.leaf (some .string) m.captured m.span)) q := by
  have hsteps : grammar.Runs [.blank] stringClause.steps p
      [.leaf (some .string) m.captured m.span] q :=
    Grammar.runs_leaf anchored_string h (grammar.runs_nil q)
  exact Grammar.finds_of_gives [] rule?_string (fun _ hc => nomatch hc) hsteps.gives

theorem misses_string (h : lookAlong? [.blank] stringPattern p.rest p = none) :
    grammar.Misses [.blank] "string" p := by
  refine Grammar.misses_of_fails rule?_string (List.forall_mem_singleton.mpr ?_)
  exact (Grammar.breaks_leaf anchored_string h).fails

theorem finds_number (h : lookAlong? [.blank] numberPattern p.rest p = some (m, q)) :
    grammar.Finds [.blank] "number" p (.kept (.leaf (some .number) m.captured m.span)) q := by
  have hsteps : grammar.Runs [.blank] numberClause.steps p
      [.leaf (some .number) m.captured m.span] q :=
    Grammar.runs_leaf anchored_number h (grammar.runs_nil q)
  exact Grammar.finds_of_gives [] rule?_number (fun _ hc => nomatch hc) hsteps.gives

theorem misses_number (h : lookAlong? [.blank] numberPattern p.rest p = none) :
    grammar.Misses [.blank] "number" p := by
  refine Grammar.misses_of_fails rule?_number (List.forall_mem_singleton.mpr ?_)
  exact (Grammar.breaks_leaf anchored_number h).fails

theorem fails_word {x : Word} (h : lookAlong? [.blank] (wordPattern x) p.rest p = none) :
    grammar.Fails [.blank] (wordClause x) p :=
  (Grammar.breaks_leaf (anchored_word x) h).fails

/-- two of the words never begin alike, so the clauses before that of a word fail -/
theorem finds_word {x : Word} (h : lookAlong? [.blank] (wordPattern x) p.rest p = some (m, q)) :
    grammar.Finds [.blank] "literal" p (.kept (.keyword x.tag)) q := by
  have hsteps : grammar.Runs [.blank] (wordClause x).steps p [.keyword x.tag] q :=
    Grammar.runs_leaf (anchored_word x) h (grammar.runs_nil q)
  have hgives : grammar.Gives [.blank] (wordClause x) p (.kept (.keyword x.tag)) q := hsteps.gives
  have hfails : ∀ y : Word, y ≠ x → grammar.Fails [.blank] (wordClause y) p := by
    intro y hy
    obtain ⟨w, rfl, htakes⟩ := (tokens_word x).takes_of_look h
    refine fails_word (look_word_eq_none ?_)
    rw [next?_of_word htakes]
    revert hy
    cases x <;> cases y <;> decide
  cases x with
  | trueWord => exact Grammar.finds_of_gives [] rule?_literal (fun _ hc => nomatch hc) hgives
  | falseWord =>
    refine Grammar.finds_of_gives [wordClause .trueWord] rule?_literal ?_ hgives
    exact List.forall_mem_singleton.mpr (hfails .trueWord (by decide))
  | nullWord =>
    refine Grammar.finds_of_gives [wordClause .trueWord, wordClause .falseWord] rule?_literal ?_
      hgives
    exact List.forall_mem_cons.mpr ⟨hfails .trueWord (by decide),
      List.forall_mem_singleton.mpr (hfails .falseWord (by decide))⟩

theorem misses_literal
    (h : ∀ x, lookAlong? [.blank] (wordPattern x) p.rest p = none) :
    grammar.Misses [.blank] "literal" p := by
  refine Grammar.misses_of_fails rule?_literal ?_
  simp only [List.forall_mem_cons]
  exact ⟨fails_word (h _), fails_word (h _), fails_word (h _), fun _ hc => nomatch hc⟩

/-! ## containers -/

theorem finds_items (h : grammar.Finds [.blank] c.item.name p (.kept t) q) (ht : t.spliced = [t])
    (hmore : grammar.Follows [.blank] c.moreName q ts q') :
    grammar.Finds [.blank] c.itemsName p (.kept (.branch none (t :: ts))) q' := by
  have hsteps : grammar.Runs [.blank] c.itemsClause.steps p [t, .branch none ts] q' :=
    h.runs (hmore.runs (Nat.zero_le _) (grammar.runs_nil q'))
  have hshape : c.itemsClause.assembly.apply [t, .branch none ts] =
      .kept (.branch none (t :: ts)) := by
    show Fragment.kept (Tree.branch none (t.spliced ++ (ts ++ []))) = _
    rw [ht, List.append_nil]
    rfl
  have hgives := hsteps.gives
  rw [hshape] at hgives
  exact Grammar.finds_of_gives [] c.rule?_itemsName (fun _ hc => nomatch hc) hgives

theorem misses_items (h : grammar.Misses [.blank] c.item.name p) :
    grammar.Misses [.blank] c.itemsName p := by
  refine Grammar.misses_of_fails c.rule?_itemsName (List.forall_mem_singleton.mpr ?_)
  exact Grammar.Breaks.fails h.breaks

theorem finds_empty (hopen : p.Takes [c.opening] q)
    (hno : grammar.Misses [.blank] c.itemsName q) (hclose : q.Takes [c.closing] q') :
    grammar.Finds [.blank] c.name p (.kept (.branch (some c.tag) [])) q' := by
  have hsteps : grammar.Runs [.blank] c.wholeClause.steps p [] q' :=
    Grammar.runs_symbol c.isSymbol_opening hopen
      (hno.runs_maybe (Grammar.runs_symbol c.isSymbol_closing hclose (grammar.runs_nil q')))
  exact Grammar.finds_of_gives [] c.rule?_name (fun _ hc => nomatch hc) hsteps.gives

/-- the group of the items dissolves, so that they are the children of the container -/
theorem finds_filled (hopen : p.Takes [c.opening] q)
    (h : grammar.Finds [.blank] c.itemsName q (.kept (.branch none ts)) q')
    (hclose : q'.Takes [c.closing] q'') :
    grammar.Finds [.blank] c.name p (.kept (.branch (some c.tag) ts)) q'' := by
  have hsteps : grammar.Runs [.blank] c.wholeClause.steps p [.branch none ts] q'' :=
    Grammar.runs_symbol c.isSymbol_opening hopen
      (h.runs_maybe (Grammar.runs_symbol c.isSymbol_closing hclose (grammar.runs_nil q'')))
  have hshape : c.wholeClause.assembly.apply [.branch none ts] = .kept (.branch (some c.tag) ts) := by
    show Fragment.kept (Tree.branch (some c.tag) (ts ++ [])) = _
    rw [List.append_nil]
  have hgives := hsteps.gives
  rw [hshape] at hgives
  exact Grammar.finds_of_gives [] c.rule?_name (fun _ hc => nomatch hc) hgives

theorem misses_container (h : grammar.Breaks [.blank] c.wholeClause.steps p) :
    grammar.Misses [.blank] c.name p :=
  Grammar.misses_of_fails c.rule?_name (List.forall_mem_singleton.mpr h.fails)

theorem breaks_container_of_opening (h : p.next? ≠ some c.opening) :
    grammar.Breaks [.blank] c.wholeClause.steps p :=
  Grammar.breaks_symbol c.isSymbol_opening h

theorem breaks_container_of_empty (hopen : p.Takes [c.opening] q)
    (hno : grammar.Misses [.blank] c.itemsName q) (hclose : q.next? ≠ some c.closing) :
    grammar.Breaks [.blank] c.wholeClause.steps p :=
  Grammar.breaks_after_symbol c.isSymbol_opening hopen
    (hno.breaks_maybe (Grammar.breaks_symbol c.isSymbol_closing hclose))

theorem breaks_container_of_filled {found : Fragment JsonTag} (hopen : p.Takes [c.opening] q)
    (h : grammar.Finds [.blank] c.itemsName q found q') (hclose : q'.next? ≠ some c.closing) :
    grammar.Breaks [.blank] c.wholeClause.steps p :=
  Grammar.breaks_after_symbol c.isSymbol_opening hopen
    (h.breaks_maybe (Grammar.breaks_symbol c.isSymbol_closing hclose))

/-! ## properties -/

theorem finds_property (hkey : grammar.Finds [.blank] "string" p (.kept t) q) (ht : t.spliced = [t])
    (hcolon : q.Takes [':'] q') (h : grammar.Finds [.blank] "value" q' (.kept u) q'')
    (hu : u.spliced = [u]) :
    grammar.Finds [.blank] "property" p (.kept (.branch (some .property) [t, u])) q'' := by
  have hsteps : grammar.Runs [.blank] propertyClause.steps p [t, u] q'' :=
    hkey.runs (Grammar.runs_symbol isSymbol_colon hcolon (h.runs (grammar.runs_nil q'')))
  have hshape : propertyClause.assembly.apply [t, u] = .kept (.branch (some .property) [t, u]) := by
    show Fragment.kept (Tree.branch (some .property) (t.spliced ++ (u.spliced ++ []))) = _
    rw [ht, hu]
    rfl
  have hgives := hsteps.gives
  rw [hshape] at hgives
  exact Grammar.finds_of_gives [] rule?_property (fun _ hc => nomatch hc) hgives

theorem misses_property (h : grammar.Breaks [.blank] propertyClause.steps p) :
    grammar.Misses [.blank] "property" p :=
  Grammar.misses_of_fails rule?_property (List.forall_mem_singleton.mpr h.fails)

/-! ## values -/

theorem finds_value (before : List String) {name : String} {after : List String}
    (hnames : valueNames = before ++ name :: after)
    (hbefore : ∀ name ∈ before, grammar.Misses [.blank] name p)
    (h : grammar.Finds [.blank] name p (.kept t) q) :
    grammar.Finds [.blank] "value" p (.kept t) q := by
  have hsteps : grammar.Runs [.blank] valueClause.steps p [t] q := by
    show grammar.Runs [.blank] [.anyOf valueNames] p [t] q
    rw [hnames]
    exact h.runs_anyOf before hbefore (grammar.runs_nil q)
  exact Grammar.finds_of_gives [] rule?_value (fun _ hc => nomatch hc) hsteps.gives

theorem misses_value (h : ∀ name ∈ valueNames, grammar.Misses [.blank] name p) :
    grammar.Misses [.blank] "value" p := by
  refine Grammar.misses_of_fails rule?_value (List.forall_mem_singleton.mpr ?_)
  exact (Grammar.breaks_anyOf h).fails

end Json

end Packrat
