import Packrat.Proofs.Lexing
import Packrat.Proofs.Meaning

/-!
# Matching from place to place

What a name reads depends on the place alone, and not on how far any earlier attempt has come.  The
readings of names, clauses and steps are stated here without the furthest offset, each with the laws
by which they are put together.

* `Grammar.Finds`, `Grammar.Misses`   a name matches from one place to another, or not at all;
* `Grammar.Gives`, `Grammar.Fails`    so does a clause;
* `Grammar.Runs`, `Grammar.Breaks`    so do steps one after the other;
* `Grammar.Repeats`                   a name matches again and again, and then not any more;
* `Grammar.Joins`, `Grammar.Follows`   the further items of a list, with a symbol before each.
-/

namespace Packrat

/-- the source spells a symbol that is no white space -/
structure Pattern.IsSymbol (source : String) (c : Char) : Prop where
  anchored : Pattern.anchored source = .ok (.symbol source c)
  visible : isWhiteSpace c = false

namespace Grammar

section
variable {τ : Type} (grammar : Grammar τ) (ignorables : List Pattern)

/-- from `p` on the name reads up to `q` -/
def Finds (name : String) (p : Place) (found : Fragment τ) (q : Place) : Prop :=
  ∀ f, ∃ f', Reads grammar ignorables name ⟨p, f⟩ (some found) ⟨q, f'⟩

/-- the name does not match at `p` -/
def Misses (name : String) (p : Place) : Prop :=
  ∀ f, ∃ f', Reads grammar ignorables name ⟨p, f⟩ none ⟨p, f'⟩

def Gives (c : Clause τ) (p : Place) (found : Fragment τ) (q : Place) : Prop :=
  ∀ f, ∃ f', ReadsClause grammar ignorables c ⟨p, f⟩ (some found) ⟨q, f'⟩

def Fails (c : Clause τ) (p : Place) : Prop :=
  ∀ f, ∃ f', ReadsClause grammar ignorables c ⟨p, f⟩ none ⟨p, f'⟩

def Runs (ss : List (Step τ)) (p : Place) (trees : List (Tree τ)) (q : Place) : Prop :=
  ∀ f, ∃ f', ReadsSteps grammar ignorables ss ⟨p, f⟩ (some trees) ⟨q, f'⟩

/-- one of the steps fails; where does not matter, since its clause goes back -/
def Breaks (ss : List (Step τ)) (p : Place) : Prop :=
  ∀ f, ∃ r, ReadsSteps grammar ignorables ss ⟨p, f⟩ none r

/-- the name matches so many times from `p` to `q`, and not at `q` -/
inductive Repeats (name : String) : Place → List (Tree τ) → Nat → Place → Prop
  | stop {p : Place} : grammar.Misses ignorables name p → Repeats name p [] 0 p
  | round {p q q' : Place} {found : Fragment τ} {trees : List (Tree τ)} {count : Nat} :
      grammar.Finds ignorables name p found q → p.offset < q.offset →
      Repeats name q trees count q' → Repeats name p (found.collected ++ trees) (count + 1) q'

end

section
variable {τ : Type} {grammar : Grammar τ} {name source : String} {c : Clause τ} {x : Char}
  {ss : List (Step τ)} {p q q' : Place} {found : Fragment τ} {trees us : List (Tree τ)}
  {count : Nat} {bound : Bound} {shape : Shape τ} {ignorables : List Pattern}

/-! ## clauses of a rule -/

theorem misses_of_fails {rule : Rule τ} (hrule : grammar.rule? name = some rule)
    (h : ∀ c ∈ rule.clauses, grammar.Fails ignorables c p) : grammar.Misses ignorables name p := by
  have hclauses : ∀ cs : List (Clause τ), (∀ c ∈ cs, grammar.Fails ignorables c p) →
      ∀ f, ∃ f', ReadsClauses grammar ignorables cs ⟨p, f⟩ none ⟨p, f'⟩ := by
    intro cs hcs
    induction cs with
    | nil => exact fun f => ⟨f, .nil⟩
    | cons c cs ih =>
      obtain ⟨hc, hcs⟩ := List.forall_mem_cons.mp hcs
      intro f
      obtain ⟨f₁, h₁⟩ := hc f
      obtain ⟨f', h'⟩ := ih hcs f₁
      exact ⟨f', .next h₁ h'⟩
  intro f
  obtain ⟨f', h'⟩ := hclauses rule.clauses h f
  exact ⟨f', .rule hrule h'⟩

/-- the clauses before the one that matches have to fail -/
theorem finds_of_gives (before : List (Clause τ)) {after : List (Clause τ)} {name' : String}
    (hrule : grammar.rule? name = some ⟨name', before ++ c :: after⟩)
    (hbefore : ∀ c ∈ before, grammar.Fails ignorables c p)
    (h : grammar.Gives ignorables c p found q) : grammar.Finds ignorables name p found q := by
  have hclauses : ∀ cs : List (Clause τ), (∀ c ∈ cs, grammar.Fails ignorables c p) → ∀ f, ∃ f',
      ReadsClauses grammar ignorables (cs ++ c :: after) ⟨p, f⟩ (some found) ⟨q, f'⟩ := by
    intro cs hcs
    induction cs with
    | nil =>
      intro f
      obtain ⟨f', h'⟩ := h f
      exact ⟨f', .hit h'⟩
    | cons c cs ih =>
      obtain ⟨hc, hcs⟩ := List.forall_mem_cons.mp hcs
      intro f
      obtain ⟨f₁, h₁⟩ := hc f
      obtain ⟨f', h'⟩ := ih hcs f₁
      exact ⟨f', .next h₁ h'⟩
  intro f
  obtain ⟨f', h'⟩ := hclauses before hbefore f
  exact ⟨f', .rule hrule h'⟩

theorem Runs.gives (h : grammar.Runs ignorables c.steps p trees q) :
    grammar.Gives ignorables c p (c.assembly.apply trees) q := by
  intro f
  obtain ⟨f', h'⟩ := h f
  exact ⟨f', .whole h'⟩

theorem Breaks.fails (h : grammar.Breaks ignorables c.steps p) : grammar.Fails ignorables c p := by
  intro f
  obtain ⟨r, h'⟩ := h f
  exact ⟨r.furthest, .broken h'⟩

/-! ## steps of a clause -/

theorem runs_nil (grammar : Grammar τ) (p : Place) : grammar.Runs ignorables [] p [] p :=
  fun f => ⟨f, .nil⟩

theorem Finds.runs (h : grammar.Finds ignorables name p found q)
    (h' : grammar.Runs ignorables ss q trees q') :
    grammar.Runs ignorables (.call name :: ss) p (found.collected ++ trees) q' := by
  intro f
  obtain ⟨f₁, h₁⟩ := h f
  obtain ⟨f', h'⟩ := h' f₁
  exact ⟨f', .next found (some trees) (.call h₁) h'⟩

theorem Finds.breaks (h : grammar.Finds ignorables name p found q)
    (h' : grammar.Breaks ignorables ss q) : grammar.Breaks ignorables (.call name :: ss) p := by
  intro f
  obtain ⟨f₁, h₁⟩ := h f
  obtain ⟨r, h'⟩ := h' f₁
  exact ⟨r, .next found none (.call h₁) h'⟩

theorem Misses.breaks (h : grammar.Misses ignorables name p) :
    grammar.Breaks ignorables (.call name :: ss) p := by
  intro f
  obtain ⟨f', h'⟩ := h f
  exact ⟨_, .fail (.call h')⟩

theorem Finds.runs_maybe (h : grammar.Finds ignorables name p found q)
    (h' : grammar.Runs ignorables ss q trees q') :
    grammar.Runs ignorables (.maybe name :: ss) p (found.collected ++ trees) q' := by
  intro f
  obtain ⟨f₁, h₁⟩ := h f
  obtain ⟨f', h'⟩ := h' f₁
  exact ⟨f', .next found (some trees) (.maybe (some found) h₁) h'⟩

theorem Finds.breaks_maybe (h : grammar.Finds ignorables name p found q)
    (h' : grammar.Breaks ignorables ss q) : grammar.Breaks ignorables (.maybe name :: ss) p := by
  intro f
  obtain ⟨f₁, h₁⟩ := h f
  obtain ⟨r, h'⟩ := h' f₁
  exact ⟨r, .next found none (.maybe (some found) h₁) h'⟩

/-- nothing is found, and nothing stands for it in the tree -/
theorem Misses.runs_maybe (h : grammar.Misses ignorables name p)
    (h' : grammar.Runs ignorables ss p trees q') :
    grammar.Runs ignorables (.maybe name :: ss) p trees q' := by
  intro f
  obtain ⟨f₁, h₁⟩ := h f
  obtain ⟨f', h'⟩ := h' f₁
  exact ⟨f', .next .nothing (some trees) (.maybe none h₁) h'⟩

theorem Misses.breaks_maybe (h : grammar.Misses ignorables name p)
    (h' : grammar.Breaks ignorables ss p) : grammar.Breaks ignorables (.maybe name :: ss) p := by
  intro f
  obtain ⟨f₁, h₁⟩ := h f
  obtain ⟨r, h'⟩ := h' f₁
  exact ⟨r, .next .nothing none (.maybe none h₁) h'⟩

/-- the names before the one that matches have to miss -/
theorem Finds.runs_anyOf (before : List String) {after : List String}
    (hbefore : ∀ name ∈ before, grammar.Misses ignorables name p)
    (h : grammar.Finds ignorables name p found q) (h' : grammar.Runs ignorables ss q trees q') :
    grammar.Runs ignorables (.anyOf (before ++ name :: after) :: ss) p (found.collected ++ trees)
      q' := by
  have hnames : ∀ names : List String, (∀ name ∈ names, grammar.Misses ignorables name p) → ∀ f,
      ∃ f', ReadsNames grammar ignorables (names ++ name :: after) ⟨p, f⟩ (some found) ⟨q, f'⟩ := by
    intro names hnames
    induction names with
    | nil =>
      intro f
      obtain ⟨f', h'⟩ := h f
      exact ⟨f', .hit h'⟩
    | cons name names ih =>
      obtain ⟨hname, hnames⟩ := List.forall_mem_cons.mp hnames
      intro f
      obtain ⟨f₁, h₁⟩ := hname f
      obtain ⟨f', h'⟩ := ih hnames f₁
      exact ⟨f', .next h₁ h'⟩
  intro f
  obtain ⟨f₁, h₁⟩ := hnames before hbefore f
  obtain ⟨f', h'⟩ := h' f₁
  exact ⟨f', .next found (some trees) (.anyOf h₁) h'⟩

theorem breaks_anyOf {names : List String}
    (h : ∀ name ∈ names, grammar.Misses ignorables name p) :
    grammar.Breaks ignorables (.anyOf names :: ss) p := by
  have hnames : ∀ f, ∃ f', ReadsNames grammar ignorables names ⟨p, f⟩ none ⟨p, f'⟩ := by
    induction names with
    | nil => exact fun f => ⟨f, .nil⟩
    | cons name names ih =>
      obtain ⟨hname, hrest⟩ := List.forall_mem_cons.mp h
      intro f
      obtain ⟨f₁, h₁⟩ := hname f
      obtain ⟨f', h'⟩ := ih hrest f₁
      exact ⟨f', .next h₁ h'⟩
  intro f
  obtain ⟨f', h'⟩ := hnames f
  exact ⟨_, .fail (.anyOf h')⟩

/-! What a leaf reads is found here or after ignorable text. -/

section
variable {pattern : Pattern} {role : Role τ} {m : Match}

theorem runs_leaf (hpattern : Pattern.anchored source = .ok pattern)
    (hlook : lookAlong? ignorables pattern p.rest p = some (m, q))
    (h : grammar.Runs ignorables ss q trees q') :
    grammar.Runs ignorables (.leaf source role :: ss) p ((role.apply m).collected ++ trees) q' := by
  intro f
  obtain ⟨f', h'⟩ := h (max f q.offset)
  exact ⟨f', .next _ (some trees) (.leaf hpattern (Reader.look?_eq_some.mpr ⟨q, hlook, rfl⟩)) h'⟩

theorem breaks_after_leaf (hpattern : Pattern.anchored source = .ok pattern)
    (hlook : lookAlong? ignorables pattern p.rest p = some (m, q))
    (h : grammar.Breaks ignorables ss q) :
    grammar.Breaks ignorables (.leaf source role :: ss) p := by
  intro f
  obtain ⟨r, h'⟩ := h (max f q.offset)
  exact ⟨r, .next _ none (.leaf hpattern (Reader.look?_eq_some.mpr ⟨q, hlook, rfl⟩)) h'⟩

theorem breaks_leaf (hpattern : Pattern.anchored source = .ok pattern)
    (hlook : lookAlong? ignorables pattern p.rest p = none) :
    grammar.Breaks ignorables (.leaf source role :: ss) p :=
  fun _ => ⟨_, .fail (.miss hpattern (Reader.look?_eq_none.mpr hlook))⟩

end

/-! A symbol is left out of the tree. -/

theorem runs_symbol (hx : Pattern.IsSymbol source x) (hp : p.Takes [x] q)
    (h : grammar.Runs [.blank] ss q trees q') :
    grammar.Runs [.blank] (.leaf source .hide :: ss) p trees q' := by
  obtain ⟨m, hlook⟩ := lookAlong?_symbol hx.visible hp
  exact runs_leaf hx.anchored hlook h

theorem breaks_after_symbol (hx : Pattern.IsSymbol source x) (hp : p.Takes [x] q)
    (h : grammar.Breaks [.blank] ss q) : grammar.Breaks [.blank] (.leaf source .hide :: ss) p := by
  obtain ⟨m, hlook⟩ := lookAlong?_symbol hx.visible hp
  exact breaks_after_leaf hx.anchored hlook h

theorem breaks_symbol (hx : Pattern.IsSymbol source x) (hp : p.next? ≠ some x) :
    grammar.Breaks [.blank] (.leaf source .hide :: ss) p :=
  breaks_leaf hx.anchored (lookAlong?_symbol_eq_none hx.visible hp)

/-! ## repetitions -/

theorem Repeats.rounds (h : grammar.Repeats ignorables name p trees count q) (f : Nat) :
    ∃ f', ReadsRounds grammar ignorables name ⟨p, f⟩ trees count ⟨q, f'⟩ := by
  induction h generalizing f with
  | stop hmiss =>
    obtain ⟨f', h'⟩ := hmiss f
    exact ⟨f', .stop h'⟩
  | round hfound hlt _ ih =>
    obtain ⟨f₁, h₁⟩ := hfound f
    obtain ⟨f', h'⟩ := ih f₁
    exact ⟨f', .round _ h₁ hlt h'⟩

theorem Repeats.runs (h : grammar.Repeats ignorables name p trees count q)
    (hcount : bound.least ≤ count) (h' : grammar.Runs ignorables ss q us q') :
    grammar.Runs ignorables (.repetition name bound shape :: ss) p
      ((shape.apply trees).collected ++ us) q' := by
  intro f
  obtain ⟨f₁, h₁⟩ := h.rounds f
  obtain ⟨f', h'⟩ := h' f₁
  exact ⟨f', .next _ (some us) (.repetition h₁ hcount) h'⟩

theorem Repeats.breaks (h : grammar.Repeats ignorables name p trees count q)
    (hcount : count < bound.least) :
    grammar.Breaks ignorables (.repetition name bound shape :: ss) p := by
  intro f
  obtain ⟨f₁, h₁⟩ := h.rounds f
  exact ⟨_, .fail (.tooFew h₁ hcount)⟩

/-! ## lists with a symbol before each further item -/

/-- a symbol and an item -/
def joinClause (source item : String) : Clause τ where
  steps := [.leaf source .hide, .call item]

/-- the name `more` reads a symbol and an item -/
def Joins (grammar : Grammar τ) (more item : String) (x : Char) : Prop :=
  ∃ source name, Pattern.IsSymbol source x ∧
    grammar.rule? more = some ⟨name, [joinClause source item]⟩

/-- the further items of a list, as many as there are -/
def Follows (grammar : Grammar τ) (ignorables : List Pattern) (more : String) (p : Place)
    (ts : List (Tree τ)) (q : Place) : Prop :=
  grammar.Repeats ignorables more p (ts.map fun t => .branch none [t]) ts.length q

section
variable {more item : String} {t : Tree τ} {ts : List (Tree τ)} {q'' : Place}

theorem Joins.finds (hj : grammar.Joins more item x) (hx : p.Takes [x] q)
    (h : grammar.Finds [.blank] item q (.kept t) q') (ht : t.spliced = [t]) :
    grammar.Finds [.blank] more p (.kept (.branch none [t])) q' := by
  obtain ⟨source, name, hsource, hrule⟩ := hj
  have hsteps : grammar.Runs [.blank] (joinClause source item).steps p [t] q' :=
    runs_symbol hsource hx (h.runs (grammar.runs_nil q'))
  have hshape : (joinClause source item).assembly.apply [t] = .kept (.branch none [t]) := by
    show Fragment.kept (Tree.branch none (t.spliced ++ [])) = _
    rw [ht]
    rfl
  have hgives := hsteps.gives
  rw [hshape] at hgives
  exact finds_of_gives [] hrule (fun _ hc => nomatch hc) hgives

theorem Joins.misses_of_symbol (hj : grammar.Joins more item x) (h : p.next? ≠ some x) :
    grammar.Misses [.blank] more p := by
  obtain ⟨source, name, hsource, hrule⟩ := hj
  exact misses_of_fails hrule (List.forall_mem_singleton.mpr (breaks_symbol hsource h).fails)

theorem Joins.misses_of_item (hj : grammar.Joins more item x) (hx : p.Takes [x] q)
    (h : grammar.Misses [.blank] item q) : grammar.Misses [.blank] more p := by
  obtain ⟨source, name, hsource, hrule⟩ := hj
  have hbreaks : grammar.Breaks [.blank] (joinClause source item).steps p :=
    breaks_after_symbol hsource hx h.breaks
  exact misses_of_fails hrule (List.forall_mem_singleton.mpr hbreaks.fails)

theorem Joins.follows (hj : grammar.Joins more item x) (hx : p.Takes [x] q)
    (h : grammar.Finds [.blank] item q (.kept t) q') (ht : t.spliced = [t])
    (hlt : p.offset < q'.offset) (hmore : grammar.Follows [.blank] more q' ts q'') :
    grammar.Follows [.blank] more p (t :: ts) q'' :=
  .round (hj.finds hx h ht) hlt hmore

/-- the groups of the items dissolve in the group of them all -/
theorem Follows.runs (h : grammar.Follows ignorables more p ts q) (hcount : bound.least ≤ ts.length)
    (h' : grammar.Runs ignorables ss q us q') :
    grammar.Runs ignorables (.repetition more bound (.splice none) :: ss) p
      (.branch none ts :: us) q' := by
  have hsplice : (ts.map fun t => Tree.branch none [t]).flatMap Tree.spliced = ts := by
    clear h hcount
    induction ts with
    | nil => rfl
    | cons t ts ih => exact congrArg (t :: ·) ih
  have hruns : grammar.Runs ignorables (.repetition more bound (.splice none) :: ss) p
      (.branch none ((ts.map fun t => Tree.branch none [t]).flatMap Tree.spliced) :: us) q' :=
    Repeats.runs h hcount h'
  rw [hsplice] at hruns
  exact hruns

end

end

end Grammar

end Packrat
