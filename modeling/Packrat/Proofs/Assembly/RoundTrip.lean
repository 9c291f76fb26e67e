import Packrat.Proofs.Assembly.Lines
import Packrat.Proofs.Verdicts

/-!
# Programs survive being written and read

* `Assembly.token_of_mem`   all tokens of a line are to be seen;
* `Assembly.tailText`       what follows a line: its filler, and then row after row;
* `Assembly.exists_newlines`   the ends of rows up to the next line, or up to the end of the text;
* `Assembly.exists_lines`   the lines of the rows that follow, in order;
* `Assembly.program_recovered`   the text of a program is parsed, and gives its lines.
-/

namespace Packrat

namespace Assembly

open AssemblyTag (grammar)

/-! ## tokens are to be seen -/

theorem token_digits (n : Digits) : Token n.text := by
  obtain ⟨d, ds, hd⟩ := List.exists_cons_of_ne_nil n.some
  have hdigit : isDecimalDigit d = true := n.all d (by rw [hd]; exact List.mem_cons_self)
  refine ⟨d, ds, hd, fun hmem => ?_⟩
  simp only [List.mem_cons, List.not_mem_nil, or_false] at hmem
  rcases hmem with rfl | rfl | rfl | rfl | rfl <;> exact absurd hdigit (by decide)

theorem token_label (l : Label) : Token l.text := by
  refine ⟨l.first, l.more, rfl, fun hmem => ?_⟩
  have hstart := l.start
  simp only [List.mem_cons, List.not_mem_nil, or_false] at hmem
  rcases hmem with h | h | h | h | h <;> rw [h] at hstart <;> exact absurd hstart (by decide)

theorem token_target (t : Target) : Token t.text := by
  obtain ⟨store, index⟩ := t
  cases store <;> exact ⟨_, _, rfl, by decide⟩

theorem token_operand (a : Operand) : Token a.text := by
  cases a with
  | target t => exact token_target t
  | number negative n =>
    cases negative with
    | true => exact ⟨_, _, rfl, by decide⟩
    | false => exact token_digits n

theorem token_operator (op : Operator) : Token op.text := by
  cases op <;> exact ⟨_, _, rfl, by decide⟩

theorem token_comparison (op : Comparison) : Token op.text := by
  cases op <;> exact ⟨_, _, rfl, by decide⟩

theorem token_keyword (k : Keyword) : Token k.text := by
  cases k <;> exact ⟨_, _, rfl, by decide⟩

theorem token_of_expression (e : Expression) : ∀ w ∈ e.tokens, Token w := by
  cases e with
  | single a => simp [Expression.tokens, token_operand]
  | binary op a b => simp [Expression.tokens, token_operand, token_operator]

theorem token_of_statement (x : Statement) : ∀ w ∈ x.tokens, Token w := by
  have hassign : Token [':', '='] := ⟨_, _, rfl, by decide⟩
  have hend : Token ['e', 'n', 'd'] := ⟨_, _, rfl, by decide⟩
  cases x with
  | assign t e =>
    simpa [Statement.tokens, token_target, hassign] using token_of_expression e
  | call l => simp [Statement.tokens, token_keyword, token_label]
  | stop => simp [Statement.tokens, token_keyword, hend]
  | goto l _ => simp [Statement.tokens, token_keyword, token_label]
  | branch c l =>
    simp [Statement.tokens, Condition.tokens, token_keyword, token_label, token_operand,
      token_comparison]
  | push e => simpa [Statement.tokens, token_keyword] using token_of_expression e
  | pop t => simp [Statement.tokens, token_keyword, token_target]
  | giveBack => simp [Statement.tokens, token_keyword]

theorem token_of_mem (x : Line) : ∀ w ∈ x.tokens, Token w := by
  have hcolon : Token [':'] := ⟨_, _, rfl, by decide⟩
  intro w hw
  rcases List.mem_append.mp hw with hw | hw
  · exact token_of_statement x.statement w hw
  · cases hlabel : x.label? with
    | none =>
      rw [hlabel] at hw
      cases hw
    | some l =>
      rw [hlabel] at hw
      simp only [Option.elim, List.mem_cons, List.not_mem_nil, or_false] at hw
      rcases hw with rfl | rfl
      · exact hcolon
      · exact token_label l

theorem exists_tokens (x : Line) : ∃ w ws, x.tokens = w :: ws := by
  obtain ⟨statement, label?⟩ := x
  cases statement <;> exact ⟨_, _, rfl⟩

/-! ## lines and rows in a text -/

theorem intercalate_cons (sep w : List Char) (ws : List (List Char)) :
    sep.intercalate (w :: ws) = w ++ ws.flatMap (sep ++ ·) := by
  induction ws generalizing w with
  | nil => simp [List.intercalate]
  | cons v ws ih =>
    have hstep : sep.intercalate (w :: v :: ws) = w ++ (sep ++ sep.intercalate (v :: ws)) := by
      simp [List.intercalate]
    rw [hstep, ih, List.flatMap_cons, List.append_assoc]

section
variable {p q : Place} {f : Filler} {r : Row} {rows : List Row} {x : Line}

theorem clear_further {ws : List (List Char)} {rest : List Char} (hrest : Clear rest) :
    Clear (ws.flatMap ([' '] ++ ·) ++ rest) := by
  cases ws with
  | nil => exact hrest
  | cons w ws =>
    rintro c ⟨⟩
    decide

theorem spread_of_rest {ws : List (List Char)} {rest : List Char} (hws : ∀ w ∈ ws, Token w)
    (hp : p.rest = ws.flatMap ([' '] ++ ·) ++ rest) (hrest : Clear rest) :
    ∃ q, Spread ws p q ∧ q.rest = rest := by
  induction ws generalizing p with
  | nil => exact ⟨p, .nil, hp⟩
  | cons w ws ih =>
    obtain ⟨hw, hws⟩ := List.forall_mem_cons.mp hws
    rw [List.flatMap_cons, List.append_assoc, List.append_assoc] at hp
    obtain ⟨p₁, hp₁, hrest₁⟩ := Place.exists_passes hp
    obtain ⟨p₂, hp₂, hrest₂⟩ := Place.exists_passes hrest₁
    obtain ⟨q, hq, hrest'⟩ := ih hws hrest₂
    have hclear : Clear p₂.rest := hrest₂ ▸ clear_further hrest
    exact ⟨q, .cons (.blank hp₁) hp₂ hw hclear hq, hrest'⟩

theorem spread_line {rest : List Char} (hp : p.rest = x.text ++ rest) (hrest : Clear rest) :
    ∃ q, Spread x.tokens p q ∧ q.rest = rest := by
  obtain ⟨w, ws, htokens⟩ := exists_tokens x
  have hall := token_of_mem x
  rw [htokens] at hall ⊢
  obtain ⟨hw, hws⟩ := List.forall_mem_cons.mp hall
  rw [Line.text, htokens, intercalate_cons, List.append_assoc] at hp
  obtain ⟨p₁, hp₁, hrest₁⟩ := Place.exists_passes hp
  obtain ⟨q, hq, hrest'⟩ := spread_of_rest hws hrest₁ hrest
  have hclear : Clear p₁.rest := hrest₁ ▸ clear_further hrest
  exact ⟨q, .cons .nothing hp₁ hw hclear hq, hrest'⟩

/-- what follows a line: its filler, and then row after row -/
def tailText (f : Filler) (rows : List Row) : List Char :=
  f.text ++ rows.flatMap fun r => '\n' :: r.text

theorem textOf_cons (r : Row) (rows : List Row) :
    textOf (r :: rows) = r.line?.elim [] Line.text ++ tailText r.filler rows := by
  rw [textOf, List.map_cons, intercalate_cons, List.flatMap_map, Row.text, List.append_assoc]
  rfl

theorem clear_tailText (f : Filler) (rows : List Row) : Clear (tailText f rows) := by
  intro c hc
  cases hb : f.blanks with
  | cons b bs =>
    have hblank := f.blank b (by rw [hb]; exact List.mem_cons_self)
    simp only [tailText, Filler.text, hb, List.cons_append, List.head?_cons, Option.some.injEq] at hc
    rw [← hc]
    rcases hblank with rfl | rfl <;> decide
  | nil =>
    cases hcomment : f.comment? with
    | some comment =>
      simp [tailText, Filler.text, hb, hcomment] at hc
      rw [← hc]
      decide
    | none =>
      cases rows with
      | nil => simp [tailText, Filler.text, hb, hcomment] at hc
      | cons r rows =>
        simp [tailText, Filler.text, hb, hcomment] at hc
        rw [← hc]
        decide

theorem shown_tail (h : q.rest = tailText f rows) :
    (shown q).rest = rows.flatMap (fun r => '\n' :: r.text) ∧ q.offset ≤ (shown q).offset := by
  obtain ⟨q', hq', hrest⟩ := Place.exists_passes h
  have hend : q'.rest = [] ∨ q'.rest.head? = some '\n' := by
    rw [hrest]
    cases rows with
    | nil => exact .inl rfl
    | cons r rows => exact .inr rfl
  rw [shown_filler f hq' hend]
  exact ⟨hrest, Place.offset_le hq'.le⟩

theorem rowEnds_tail (h : q.rest = tailText f rows) : RowEnds q := by
  rw [RowEnds, (shown_tail h).1]
  cases rows with
  | nil => exact .inl rfl
  | cons r rows => exact .inr rfl

/-- **A line is found where it stands in a text.** -/
theorem shows_line_of_rest (h : p.rest = x.text ++ tailText f rows) :
    ∃ q, grammar.Shows ignorables "line" p x.tree q ∧ p.offset ≤ q.offset ∧
      q.rest = tailText f rows := by
  obtain ⟨q, hspread, hrest⟩ := spread_line h (clear_tailText f rows)
  exact ⟨q, shows_line hspread (rowEnds_tail hrest), hspread.offset_le, hrest⟩

/-! ## ends of rows -/

def newlineClause : Clause AssemblyTag where
  steps := [.leaf "\\r?\\n" .hide]

theorem rule?_newline : grammar.rule? "newline" = some ⟨"newline", [newlineClause]⟩ := rfl

theorem finds_newline (h : q.rest = tailText f (r :: rows)) :
    ∃ q', grammar.Finds ignorables "newline" q .nothing q' ∧ q.offset < q'.offset ∧
      q'.rest = r.line?.elim [] Line.text ++ tailText r.filler rows := by
  obtain ⟨hrest, hle⟩ := shown_tail h
  rw [List.flatMap_cons] at hrest
  obtain ⟨q', hq', hrest'⟩ : ∃ q', (shown q).Passes ['\n'] q' ∧
      q'.rest = r.text ++ rows.flatMap fun r => '\n' :: r.text := Place.exists_passes hrest
  obtain ⟨m, hlook⟩ := look_newline hq'
  have hruns : grammar.Runs ignorables newlineClause.steps q [] q' :=
    Grammar.runs_leaf anchored_newline hlook (grammar.runs_nil q')
  refine ⟨q', Grammar.finds_of_gives [] rule?_newline (List.forall_mem_nil _) hruns.gives, ?_, ?_⟩
  · exact Nat.lt_of_le_of_lt hle (offset_lt_of_passes (List.cons_ne_nil _ _) hq')
  · rw [hrest', Row.text, List.append_assoc, tailText]

theorem misses_newline (h : (shown q).rest.head?.any isRowEnd = false) :
    grammar.Misses ignorables "newline" q := by
  refine Grammar.misses_of_fails rule?_newline (List.forall_mem_singleton.mpr ?_)
  exact (Grammar.breaks_leaf anchored_newline (look_newline_eq_none h)).fails

/-- no row ends where a line begins -/
theorem misses_newline_of_line {rest : List Char} (h : q.rest = x.text ++ rest) :
    grammar.Misses ignorables "newline" q := by
  obtain ⟨w, ws, htokens⟩ := exists_tokens x
  obtain ⟨c, v, rfl, hc⟩ := token_of_mem x w (by rw [htokens]; exact List.mem_cons_self)
  have hhead : q.rest.head? = some c := by
    rw [h, Line.text, htokens, intercalate_cons]
    rfl
  simp only [List.mem_cons, List.not_mem_nil, or_false, not_or] at hc
  obtain ⟨hblank, htab, hmark, hnewline, hreturn⟩ := hc
  have hshown : shown q = q := shown_of_visible (by simp [hhead, isGap, hblank, htab, hmark])
  refine misses_newline ?_
  rw [hshown]
  simp [hhead, isRowEnd, hnewline, hreturn]

def newlinesClause : Clause AssemblyTag where
  steps := [.repetition "newline" .oneOrMore (.splice none)]

theorem rule?_newlines : grammar.rule? "newlines" = some ⟨"newlines", [newlinesClause]⟩ := rfl

theorem finds_newlines {n : Nat} (h : grammar.Repeats ignorables "newline" p [] (n + 1) q) :
    grammar.Finds ignorables "newlines" p (.kept (.branch none [])) q := by
  have hruns : grammar.Runs ignorables newlinesClause.steps p [.branch none []] q :=
    Grammar.Repeats.runs h (Nat.succ_pos n) (grammar.runs_nil q)
  exact Grammar.finds_of_gives [] rule?_newlines (List.forall_mem_nil _) hruns.gives

theorem misses_newlines (h : grammar.Misses ignorables "newline" p) :
    grammar.Misses ignorables "newlines" p := by
  refine Grammar.misses_of_fails rule?_newlines (List.forall_mem_singleton.mpr ?_)
  have hbreaks : grammar.Breaks ignorables newlinesClause.steps p :=
    Grammar.Repeats.breaks (.stop h) Nat.one_pos
  exact hbreaks.fails

/-- where the text goes on after the ends of rows: with the next line, or not at all -/
def GoesOn (rows : List Row) (q : Place) : Prop :=
  (linesOf rows = [] ∧ ∃ f, q.rest = tailText f []) ∨
    ∃ x f others, linesOf rows = x :: linesOf others ∧ others.length < rows.length ∧
      q.rest = x.text ++ tailText f others

theorem exists_newlines (hrows : rows ≠ []) (h : q.rest = tailText f rows) :
    ∃ n q', grammar.Repeats ignorables "newline" q [] (n + 1) q' ∧ q.offset < q'.offset ∧
      GoesOn rows q' := by
  induction rows generalizing q f with
  | nil => exact absurd rfl hrows
  | cons r rows ih =>
    obtain ⟨q₁, hfound, hlt, hrest⟩ := finds_newline h
    obtain ⟨line?, filler⟩ := r
    cases line? with
    | some x =>
      have hstop : grammar.Repeats ignorables "newline" q₁ [] 0 q₁ :=
        .stop (misses_newline_of_line hrest)
      exact ⟨0, q₁, .round hfound hlt hstop, hlt,
        .inr ⟨x, filler, rows, rfl, Nat.lt_succ_self _, hrest⟩⟩
    | none =>
      by_cases hnil : rows = []
      · subst hnil
        have hend : (shown q₁).rest = [] := (shown_tail hrest).1
        have hstop : grammar.Repeats ignorables "newline" q₁ [] 0 q₁ :=
          .stop (misses_newline (by rw [hend]; rfl))
        exact ⟨0, q₁, .round hfound hlt hstop, hlt, .inl ⟨rfl, filler, hrest⟩⟩
      · obtain ⟨n, q₂, hrepeats, hlt', hgoes⟩ := ih hnil hrest
        refine ⟨n + 1, q₂, .round hfound hlt hrepeats, Nat.lt_trans hlt hlt', ?_⟩
        rcases hgoes with ⟨hlines, hrest'⟩ | ⟨x, f', others, hlines, hlength, hrest'⟩
        · exact .inl ⟨hlines, hrest'⟩
        · exact .inr ⟨x, f', others, hlines, Nat.lt_succ_of_lt hlength, hrest'⟩

/-! ## the lines that follow -/

def nextLineClause : Clause AssemblyTag where
  steps := [.call "newlines", .call "line"]

theorem rule?_nextLine : grammar.rule? "next_line" = some ⟨"next_line", [nextLineClause]⟩ := rfl

/-- the ends of rows are not seen in the tree -/
theorem finds_nextLine {q' : Place} {u : Tree AssemblyTag}
    (h : grammar.Finds ignorables "newlines" p (.kept (.branch none [])) q)
    (hline : grammar.Finds ignorables "line" q (.kept u) q') (hu : u.spliced = [u]) :
    grammar.Finds ignorables "next_line" p (.kept (.branch none [u])) q' := by
  have hruns : grammar.Runs ignorables nextLineClause.steps p [.branch none [], u] q' :=
    h.runs (hline.runs (grammar.runs_nil q'))
  have hshape : nextLineClause.assembly.apply [.branch none [], u] = .kept (.branch none [u]) := by
    show Fragment.kept (Tree.branch none ([] ++ (u.spliced ++ []))) = _
    rw [hu]
    rfl
  have hgives := hruns.gives
  rw [hshape] at hgives
  exact Grammar.finds_of_gives [] rule?_nextLine (List.forall_mem_nil _) hgives

theorem misses_nextLine (h : grammar.Breaks ignorables nextLineClause.steps p) :
    grammar.Misses ignorables "next_line" p :=
  Grammar.misses_of_fails rule?_nextLine (List.forall_mem_singleton.mpr h.fails)

/-- **The lines of the rows that follow are found one after the other**, and then only blank rows
are left. -/
theorem exists_lines (h : q.rest = tailText f rows) :
    ∃ us q' f' others, grammar.Follows ignorables "next_line" q us q' ∧
      (linesOf rows).map (Tree.bare ∘ Line.tree) = us.map Tree.bare ∧
      q'.rest = tailText f' others ∧ linesOf others = [] := by
  -- by induction on the rows that are left, since blank rows are read along with the next line
  induction hn : rows.length using Nat.strongRecOn generalizing q f rows with
  | _ n ih =>
    subst hn
    by_cases hnil : rows = []
    · subst hnil
      have hend : (shown q).rest = [] := (shown_tail h).1
      have hno : grammar.Misses ignorables "newline" q := misses_newline (by rw [hend]; rfl)
      have hstop := misses_nextLine (misses_newlines hno).breaks
      exact ⟨[], q, f, [], .stop hstop, rfl, h, rfl⟩
    · obtain ⟨m, q₁, hrepeats, hlt, hgoes⟩ := exists_newlines hnil h
      have hnewlines := finds_newlines hrepeats
      rcases hgoes with ⟨hlines, f', hrest⟩ | ⟨x, f', others, hlines, hlength, hrest⟩
      · -- the ends of rows are read and given back, as no line comes after them
        have hno := misses_line (shown_tail hrest).1
        have hstop := misses_nextLine (hnewlines.breaks hno.breaks)
        exact ⟨[], q, f, rows, .stop hstop, by rw [hlines]; rfl, h, hlines⟩
      · obtain ⟨q₂, ⟨u, hu, hline⟩, hle, hrest₂⟩ := shows_line_of_rest hrest
        obtain ⟨us, q', f'', others', hfollows, hus, hrest', hlines'⟩ := ih _ hlength hrest₂ rfl
        have hnext := finds_nextLine hnewlines hline (Tree.spliced_of_bare hu (isSome_tag_line x))
        have hoffset : q.offset < q₂.offset := Nat.lt_of_lt_of_le hlt hle
        refine ⟨u :: us, q', f'', others', .round hnext hoffset hfollows, ?_, hrest', hlines'⟩
        rw [hlines, List.map_cons, List.map_cons, hus, Function.comp, hu]

/-! ## programs -/

def programClause : Clause AssemblyTag :=
  tagged .program [.maybe "newlines", .call "line",
    .repetition "next_line" .zeroOrMore (.splice none), .maybe "newlines"]

theorem rule?_program : grammar.rule? "program" = some ⟨"program", [programClause]⟩ := rfl

/-- the ends of rows before the first line; their group is empty, if there is one -/
theorem runs_before (h : linesOf rows ≠ []) (hp : p.rest = textOf rows) :
    ∃ x f others p' groups, linesOf rows = x :: linesOf others ∧
      p'.rest = x.text ++ tailText f others ∧ groups.flatMap Tree.spliced = [] ∧
      ∀ {ss us q}, grammar.Runs ignorables ss p' us q →
        grammar.Runs ignorables (.maybe "newlines" :: ss) p (groups ++ us) q := by
  cases rows with
  | nil => exact absurd rfl h
  | cons r rows =>
    rw [textOf_cons] at hp
    obtain ⟨line?, filler⟩ := r
    cases line? with
    | some x =>
      have hno := misses_newlines (misses_newline_of_line hp)
      exact ⟨x, filler, rows, p, [], rfl, hp, rfl, fun hruns => hno.runs_maybe hruns⟩
    | none =>
      have hlines : linesOf rows ≠ [] := h
      have hnil : rows ≠ [] := by
        rintro rfl
        exact hlines rfl
      obtain ⟨n, p', hrepeats, -, hgoes⟩ := exists_newlines hnil hp
      rcases hgoes with ⟨hnone, -⟩ | ⟨x, f, others, hx, -, hrest⟩
      · exact absurd hnone hlines
      · have hfound := finds_newlines hrepeats
        exact ⟨x, f, others, p', [.branch none []], hx, hrest, rfl,
          fun hruns => hfound.runs_maybe hruns⟩

/-- the ends of rows after the last line -/
theorem runs_after (hlines : linesOf rows = []) (hq : q.rest = tailText f rows) :
    ∃ q' groups, (shown q').rest = [] ∧ groups.flatMap Tree.spliced = [] ∧
      grammar.Runs ignorables [.maybe "newlines"] q groups q' := by
  by_cases hnil : rows = []
  · subst hnil
    have hend : (shown q).rest = [] := (shown_tail hq).1
    have hno : grammar.Misses ignorables "newline" q := misses_newline (by rw [hend]; rfl)
    exact ⟨q, [], hend, rfl, (misses_newlines hno).runs_maybe (grammar.runs_nil q)⟩
  · obtain ⟨n, q', hrepeats, -, hgoes⟩ := exists_newlines hnil hq
    rcases hgoes with ⟨-, f', hrest⟩ | ⟨x, f', others, hx, -, -⟩
    · exact ⟨q', [.branch none []], (shown_tail hrest).1, rfl,
        (finds_newlines hrepeats).runs_maybe (grammar.runs_nil q')⟩
    · rw [hlines] at hx
      cases hx

theorem finds_program (h : linesOf rows ≠ []) (hp : p.rest = textOf rows) :
    ∃ u q, grammar.Finds ignorables "program" p (.kept u) q ∧ (shown q).rest = [] ∧
      (programTree (linesOf rows)).bare = u.bare := by
  obtain ⟨x, f, others, p₁, before, hlines, hrest₁, hbefore, hruns₁⟩ := runs_before h hp
  obtain ⟨p₂, ⟨u, hu, hline⟩, -, hrest₂⟩ := shows_line_of_rest hrest₁
  obtain ⟨us, p₃, f', blank, hfollows, hus, hrest₃, hblank⟩ := exists_lines hrest₂
  obtain ⟨q, after, hend, hafter, hruns₃⟩ := runs_after hblank hrest₃
  have hsteps : grammar.Runs ignorables programClause.steps p
      (before ++ (u :: .branch none us :: after)) q :=
    hruns₁ (hline.runs (hfollows.runs (Nat.zero_le _) hruns₃))
  -- what is left of the groups are the lines
  have hspliced : (before ++ (u :: .branch none us :: after)).flatMap Tree.spliced = u :: us := by
    have hu' := Tree.spliced_of_bare hu (isSome_tag_line x)
    rw [List.flatMap_append, List.flatMap_cons, List.flatMap_cons, hbefore, hafter, hu']
    simp [Tree.spliced]
  have hshape : programClause.assembly.apply (before ++ (u :: .branch none us :: after)) =
      .kept (.branch (some .program) (u :: us)) := by
    rw [← hspliced]
    rfl
  have hgives := hsteps.gives
  rw [hshape] at hgives
  refine ⟨_, q, Grammar.finds_of_gives [] rule?_program (List.forall_mem_nil _) hgives, hend, ?_⟩
  rw [programTree, Tree.bare_branch, Tree.bare_branch, hlines, List.map_cons, List.map_cons,
    List.map_cons, List.map_map, hu, hus]

end

theorem ruleIndex?_program : grammar.compile.ruleIndex? "program" = some 0 := by decide +kernel

/-- **The text of a program is parsed, and gives its lines in order.**  Blanks and comments after the
lines, and blank rows before, between and after them, leave no trace; there is one outcome, whatever
the limit. -/
theorem program_recovered (rows : List Row) (h : linesOf rows ≠ []) :
    ∃ u, u.same (programTree (linesOf rows)) = true ∧ ∀ outcome,
      (∃ limit, grammar.compile.parse? limit "program" (String.ofList (textOf rows)) {} =
        some outcome) ↔ outcome = .ok u := by
  have hp : (Place.first (String.ofList (textOf rows)).toList).rest = textOf rows := by
    rw [String.toList_ofList]
    rfl
  obtain ⟨u, q, hfound, hend, hu⟩ := finds_program h hp
  refine ⟨u, (Tree.same_iff u _).mpr hu.symm, fun outcome => ?_⟩
  have houtcome := Grammar.parse?_of_finds ruleIndex?_program ignorablesFor_grammar hfound outcome
  have hend' : (skipAll ignorables q).rest = [] := hend
  rw [if_pos hend'] at houtcome
  exact houtcome

def countdown : List Row :=
  let one : Digits := ⟨['1'], by simp, List.all_eq_true.mp rfl⟩
  let spare (comment? : Option (List Char)) (h : ∀ comment ∈ comment?, '\n' ∉ comment) : Filler :=
    ⟨[' '], comment?, by simp, h⟩
  let a : Operand := .target ⟨.accumulator, one⟩
  let loop : Label := ⟨'l', ['p'], rfl, List.all_eq_true.mp rfl⟩
  let ending : Label := ⟨'e', ['n', 'd', 's'], rfl, List.all_eq_true.mp rfl⟩
  [⟨none, spare (some ['!']) (by simp)⟩,
   ⟨some ⟨.assign ⟨.accumulator, one⟩ (.binary .sub a (.number true one)), some loop⟩,
     spare none (by simp)⟩,
   ⟨none, spare none (by simp)⟩,
   ⟨some ⟨.branch ⟨.lessEqual, a, .number false one⟩ loop, none⟩, spare (some ['#']) (by simp)⟩,
   ⟨some ⟨.goto ending (by simp [Label.text, ending]), none⟩, spare none (by simp)⟩,
   ⟨some ⟨.stop, none⟩, spare none (by simp)⟩]

/-- four lines, with comments and blank rows before and between them -/
theorem program_recovered_of_countdown :
    String.ofList (textOf countdown) =
      " #!\na_1 := a_1 - -1 : lp \n \nif a_1 <= 1 goto lp ##\ngoto ends \ngoto end " ∧
    ∃ limit u, grammar.compile.parse? limit "program" (String.ofList (textOf countdown)) {} =
        some (.ok u) ∧ u.same (programTree (linesOf countdown)) = true := by
  refine ⟨by decide +kernel, ?_⟩
  obtain ⟨u, hu, houtcome⟩ := program_recovered countdown (List.cons_ne_nil _ _)
  obtain ⟨limit, hparse⟩ := (houtcome (.ok u)).mpr rfl
  exact ⟨limit, u, hparse, hu⟩

end Assembly

end Packrat
