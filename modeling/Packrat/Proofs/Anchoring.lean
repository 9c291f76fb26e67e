import Packrat.Proofs.Lowering
import Packrat.Proofs.References
import Packrat.Proofs.Scanning
import Packrat.Proofs.Sight

/-!
# Anchoring a pattern

A pattern is bound to the start of a text by what is written around it, so it is read anew between
the parentheses of a group.  That group is closed by the parenthesis meant for it, unless the pattern
closes it before: then what follows is not bound to the start.

* `Expr.Draft`           an expression of which some tokens have been read;
* `Expr.ofTokensIn_eq`   tokens are read one after the other;
* `Token.closesOwn`      tokens that close no group but those they have opened;
* `Expr.Draft.readAll_within`   such tokens do not touch the groups around them;
* `Pattern.enclosed`     a text of which this is true, as far as it can be read;
* `Pattern.anchored_of_enclosed`   anchored, such a text stands for its own expression at the start;
* `Grammar.Rejects`      a text that is reported where it stands for a pattern, and matches nothing;
* `anchoring_keeps_verdict`   so anchoring neither repairs nor unbinds such a text.
-/

namespace Packrat

namespace Expr

/-- an expression of which some tokens have been read -/
structure Draft where
  /-- the number of groups that keep their text -/
  groups : Nat := 0
  names : List String := []
  /-- the enclosing groups from the innermost out -/
  enclosing : List Enclosing := []
  flags : Flags := {}
  /-- the group being read -/
  here : Unfinished := {}

namespace Draft

/-- reads one token -/
def read (d : Draft) : Token → Except PatternError Draft
  | .closing =>
    match d.enclosing with
    | [] => .error .unopenedGroup
    | g :: enclosing =>
      .ok { d with enclosing, flags := g.flags, here := g.outer.push (close g.index d.here.finish) }
  | .bar => .ok { d with here := d.here.split }
  | .flags changes => .ok { d with flags := d.flags.change changes, here := d.here.mark }
  | .opening (.plain changes) =>
    .ok { d with
      enclosing := ⟨none, d.flags, d.here⟩ :: d.enclosing, flags := d.flags.change changes, here := {} }
  | .opening (.capturing none) =>
    .ok { d with
      groups := d.groups + 1, enclosing := ⟨some (d.groups + 1), d.flags, d.here⟩ :: d.enclosing
      here := {} }
  | .opening (.capturing (some name)) =>
    if d.names.contains name then .error (.repeatedGroupName name)
    else
      .ok { d with
        groups := d.groups + 1, names := name :: d.names
        enclosing := ⟨some (d.groups + 1), d.flags, d.here⟩ :: d.enclosing, here := {} }
  | .count least most lazy =>
    match d.here.items with
    | some e :: items =>
      .ok { d with here := { d.here with
        items := some (times (lazy == d.flags.swapGreed) e least most) :: items } }
    | _ => .error .nothingToRepeat
  | token =>
    match atom d.flags token with
    | none => .ok d
    | some e => .ok { d with here := d.here.push e }

/-- reads tokens -/
def readAll (d : Draft) (tokens : List Token) : Except PatternError Draft := tokens.foldlM read d

/-- the expression, if no group is open -/
def finish (d : Draft) : Except PatternError Expr :=
  match d.enclosing with
  | [] => .ok d.here.finish
  | _ :: _ => .error .unclosedGroup

end Draft

theorem ofTokensIn_eq (d : Draft) (tokens : List Token) :
    ofTokensIn d.groups d.names d.enclosing d.flags d.here tokens =
      d.readAll tokens >>= Draft.finish := by
  induction tokens generalizing d with
  | nil => rfl
  | cons token tokens ih =>
    obtain ⟨groups, names, enclosing, flags, here⟩ := d
    rw [Draft.readAll, List.foldlM_cons]
    have hatom : ∀ e, ofTokensIn groups names enclosing flags (here.push e) tokens =
        (Draft.readAll ⟨groups, names, enclosing, flags, here.push e⟩ tokens) >>= Draft.finish :=
      fun e => ih ⟨groups, names, enclosing, flags, here.push e⟩
    cases token with
    | closing =>
      cases enclosing with
      | nil => rfl
      | cons g enclosing => exact ih ⟨groups, names, enclosing, g.flags, _⟩
    | bar => exact ih ⟨groups, names, enclosing, flags, here.split⟩
    | flags changes => exact ih ⟨groups, names, enclosing, flags.change changes, here.mark⟩
    | opening o =>
      cases o with
      | plain changes => exact ih ⟨groups, names, _, flags.change changes, {}⟩
      | capturing name =>
        cases name with
        | none => exact ih ⟨groups + 1, names, _, flags, {}⟩
        | some name =>
          simp only [ofTokensIn, Draft.read]
          by_cases hname : names.contains name = true
          · rw [if_pos hname, if_pos hname]
            rfl
          · rw [if_neg hname, if_neg hname]
            exact ih ⟨groups + 1, name :: names, _, flags, {}⟩
    | count least most lazy =>
      obtain ⟨alternatives, items⟩ := here
      cases items with
      | nil => rfl
      | cons item items =>
        cases item with
        | none => rfl
        | some e =>
          exact ih ⟨groups, names, enclosing, flags, alternatives,
            some (times (lazy == flags.swapGreed) e least most) :: items⟩
    | char c => exact hatom _
    | set s => exact hatom _
    | dot => exact hatom _
    | caret => exact hatom _
    | dollar => exact hatom _
    | assert a => exact hatom _

namespace Draft
variable {d d' : Draft} {token : Token} {tokens : List Token}

/-- the same, with further groups around it -/
def within (d : Draft) (outer : List Enclosing) : Draft :=
  { d with enclosing := d.enclosing ++ outer }

theorem read_within (h : token = .closing → d.enclosing ≠ []) (outer : List Enclosing) :
    (d.within outer).read token = (d.read token).map (·.within outer) := by
  obtain ⟨groups, names, enclosing, flags, here⟩ := d
  cases token with
  | closing =>
    cases enclosing with
    | nil => exact absurd rfl (h rfl)
    | cons g enclosing => rfl
  | opening o =>
    cases o with
    | plain changes => rfl
    | capturing name =>
      cases name with
      | none => rfl
      | some name =>
        show (if names.contains name then _ else _) = Except.map _ (if names.contains name then _ else _)
        by_cases hname : names.contains name = true
        · rw [if_pos hname, if_pos hname]
          rfl
        · rw [if_neg hname, if_neg hname]
          rfl
  | count least most lazy =>
    simp only [read, within]
    split <;> rfl
  | _ => rfl

end Draft

end Expr

/-- whether these tokens close no group but those they have opened, and `depth` groups before -/
def Token.closesOwn : Nat → List Token → Bool
  | _, [] => true
  | depth, token :: tokens =>
    match token with
    | .opening _ => closesOwn (depth + 1) tokens
    | .closing => depth != 0 && closesOwn (depth - 1) tokens
    | _ => closesOwn depth tokens

namespace Expr.Draft
variable {d d' : Draft} {token : Token} {tokens : List Token}

open Token (closesOwn)

theorem closesOwn_of_read (h : d.read token = .ok d') (tokens : List Token) :
    closesOwn d.enclosing.length (token :: tokens) = closesOwn d'.enclosing.length tokens := by
  obtain ⟨groups, names, enclosing, flags, here⟩ := d
  cases token with
  | closing =>
    cases enclosing with
    | nil => cases h
    | cons g enclosing =>
      cases h
      rfl
  | opening o =>
    cases o with
    | plain changes =>
      cases h
      rfl
    | capturing name =>
      cases name with
      | none =>
        cases h
        rfl
      | some name =>
        simp only [read] at h
        split at h
        · cases h
        · cases h
          rfl
  | count least most lazy =>
    simp only [read] at h
    split at h
    · cases h
      rfl
    · cases h
  | _ =>
    cases h
    rfl

/-- **Tokens that close only their own groups do not touch those around them.** -/
theorem readAll_within (h : closesOwn d.enclosing.length tokens = true) (outer : List Enclosing) :
    (d.within outer).readAll tokens = (d.readAll tokens).map (·.within outer) := by
  induction tokens generalizing d with
  | nil => rfl
  | cons token tokens ih =>
    have hclosing : token = .closing → d.enclosing ≠ [] := by
      rintro rfl hnil
      rw [hnil] at h
      cases h
    rw [readAll, readAll, List.foldlM_cons, List.foldlM_cons, read_within hclosing]
    cases hread : d.read token with
    | error e => rfl
    | ok d' =>
      rw [closesOwn_of_read hread] at h
      exact ih h

theorem closesOwn_of_readAll (h : d.readAll tokens = .ok d') :
    closesOwn d.enclosing.length tokens = true := by
  induction tokens generalizing d with
  | nil => rfl
  | cons token tokens ih =>
    rw [readAll, List.foldlM_cons] at h
    cases hread : d.read token with
    | error e =>
      rw [hread] at h
      cases h
    | ok next =>
      rw [hread] at h
      rw [closesOwn_of_read hread]
      exact ih h

theorem readAll_concat (d : Draft) (tokens : List Token) (last : Token) :
    d.readAll (tokens ++ [last]) = d.readAll tokens >>= fun d => d.read last := by
  simp [readAll, List.foldlM_append]

end Expr.Draft

/-! ## the group around a pattern -/

namespace Expr

/-- what is around the tokens of an anchored pattern: a group behind the start of the text -/
def anchoring : Enclosing := ⟨none, {}, {}, [some (.assert .textStart)]⟩

namespace Draft

theorem finish_of_ne (d : Draft) (h : d.enclosing ≠ []) : d.finish = .error .unclosedGroup := by
  rw [finish]
  split
  · next hnil => exact absurd hnil h
  · rfl

/-- the parenthesis closes the group around what has been read, if this is complete -/
theorem finish_closing (d : Draft) : (d.within [anchoring]).read .closing >>= finish =
    d.finish.map (.seq (.assert .textStart)) := by
  obtain ⟨groups, names, enclosing, flags, here⟩ := d
  cases enclosing with
  | nil => rfl
  | cons g enclosing => exact finish_of_ne _ (List.append_ne_nil_of_right_ne_nil _ (by simp))

theorem finish_lone {last : Token} (h : last.Lone) (d : Draft) :
    (d.within [anchoring]).read last >>= finish = .error .unclosedGroup := by
  have hne : (d.within [anchoring]).enclosing ≠ [] :=
    List.append_ne_nil_of_right_ne_nil _ (by simp)
  rcases h with rfl | ⟨changes, rfl⟩ <;> exact finish_of_ne _ hne

end Draft

theorem ofTokens_eq (tokens : List Token) :
    ofTokens tokens = ({} : Draft).readAll tokens >>= Draft.finish :=
  ofTokensIn_eq {} tokens

variable {tokens : List Token} {last : Token}

theorem ofTokens_anchoring (h : Token.closesOwn 0 tokens = true) (last : Token) :
    ofTokens (.assert .textStart :: .opening (.plain []) :: (tokens ++ [last])) =
      ({} : Draft).readAll tokens >>= fun d => (d.within [anchoring]).read last >>= Draft.finish := by
  have haround : ofTokens (.assert .textStart :: .opening (.plain []) :: (tokens ++ [last])) =
      (({} : Draft).within [anchoring]).readAll (tokens ++ [last]) >>= Draft.finish :=
    ofTokensIn_eq (({} : Draft).within [anchoring]) (tokens ++ [last])
  rw [haround, Draft.readAll_concat, Draft.readAll_within (d := {}) h]
  cases ({} : Draft).readAll tokens <;> rfl

theorem ofTokens_closing (h : Token.closesOwn 0 tokens = true) :
    ofTokens (.assert .textStart :: .opening (.plain []) :: (tokens ++ [.closing])) =
      (ofTokens tokens).map (.seq (.assert .textStart)) := by
  rw [ofTokens_anchoring h, ofTokens_eq]
  cases ({} : Draft).readAll tokens with
  | error e => rfl
  | ok d => exact d.finish_closing

theorem ofTokens_lone (h : Token.closesOwn 0 tokens = true) (hlast : last.Lone) :
    ∃ e, ofTokens (.assert .textStart :: .opening (.plain []) :: (tokens ++ [last])) = .error e := by
  rw [ofTokens_anchoring h]
  cases ({} : Draft).readAll tokens with
  | error e => exact ⟨e, rfl⟩
  | ok d => exact ⟨.unclosedGroup, Draft.finish_lone hlast d⟩

theorem closesOwn_of_ofTokens {e : Expr} (h : ofTokens tokens = .ok e) :
    Token.closesOwn 0 tokens = true := by
  rw [ofTokens_eq] at h
  cases hread : ({} : Draft).readAll tokens with
  | error e =>
    rw [hread] at h
    cases h
  | ok d => exact Draft.closesOwn_of_readAll hread

end Expr

namespace Pattern
variable {source : String} {pattern : Pattern}

/-- Whether no parenthesis of the text closes a group that the text has not opened.  The text is read
with the parenthesis behind it that is to close the group around it. -/
def enclosed (source : String) : Bool :=
  match Token.scan (source.toList ++ [')']) with
  | .error _ => true
  | .ok tokens => Token.closesOwn 0 tokens.dropLast

theorem enclosed_eq {tokens : List Token} {last : Token}
    (h : Token.scan (source.toList ++ [')']) = .ok (tokens ++ [last])) :
    enclosed source = Token.closesOwn 0 tokens := by
  rw [enclosed, h]
  exact congrArg (Token.closesOwn 0) List.dropLast_concat

theorem compile_eq (source : String) :
    compile source = (Token.scan source.toList >>= Expr.ofTokens).map (Pattern.mk source) := by
  simp only [compile]
  cases Token.scan source.toList with
  | error e => rfl
  | ok tokens =>
    show _ = (Expr.ofTokens tokens).map (Pattern.mk source)
    cases hexpr : Expr.ofTokens tokens <;> simp only [hexpr] <;> rfl

theorem compile_source (h : compile source = .ok pattern) : pattern.source = source := by
  rw [compile_eq] at h
  cases hexpr : Token.scan source.toList >>= Expr.ofTokens with
  | error e =>
    rw [hexpr] at h
    cases h
  | ok expr =>
    rw [hexpr] at h
    cases h
    rfl

theorem scan_anchoredSource (source : String) : Token.scan (anchoredSource source).toList =
    (Token.scan (source.toList ++ [')'])).map
      fun tokens => .assert .textStart :: .opening (.plain []) :: tokens := by
  have htext : (anchoredSource source).toList =
      '\\' :: 'A' :: '(' :: '?' :: ':' :: (source.toList ++ [')']) := by
    simp [anchoredSource]
  rw [htext, Token.scan_of_next (c := '\\') rfl, Token.scan_of_next (c := '(') rfl]
  cases Token.scan (source.toList ++ [')']) <;> rfl

/-- **Anchored, a text that closes only its own groups stands for its own expression at the start of
a text**, or for none if it has none. -/
theorem anchored_of_enclosed (h : enclosed source = true) : (anchored source).toOption =
    (compile source).toOption.map fun own => starting source own.expr := by
  rw [anchored, compile_eq, scan_anchoredSource, compile_eq]
  rcases Token.scan_concat source.toList with
    ⟨tokens, hscan, hscan'⟩ | ⟨⟨e, hscan⟩, ⟨e', hscan'⟩ | ⟨tokens, last, hscan', hlast⟩⟩
  · rw [hscan, hscan']
    show ((Expr.ofTokens _).map _).toOption = ((Expr.ofTokens tokens).map _).toOption.map _
    rw [Expr.ofTokens_closing ((enclosed_eq hscan').symm.trans h)]
    cases Expr.ofTokens tokens <;> rfl
  · rw [hscan, hscan']
    rfl
  · obtain ⟨e', hexpr⟩ := Expr.ofTokens_lone ((enclosed_eq hscan').symm.trans h) hlast
    rw [hscan, hscan']
    show ((Expr.ofTokens _).map _).toOption = none
    rw [hexpr]
    rfl

theorem isOk_anchored (h : enclosed source = true) :
    (anchored source).isOk = (compile source).isOk := by
  have hok : ∀ x : Except PatternError Pattern, x.isOk = x.toOption.isSome := by
    intro x
    cases x <;> rfl
  rw [hok, anchored_of_enclosed h, Option.isSome_map, hok]

/-- a text that is a pattern closes only its own groups -/
theorem enclosed_of_compile (h : compile source = .ok pattern) : enclosed source = true := by
  rw [compile_eq] at h
  rcases Token.scan_concat source.toList with ⟨tokens, hscan, hscan'⟩ | ⟨⟨e, hscan⟩, -⟩
  · rw [hscan] at h
    replace h : (Expr.ofTokens tokens).map (Pattern.mk source) = .ok pattern := h
    rw [enclosed_eq hscan']
    cases hexpr : Expr.ofTokens tokens with
    | error e =>
      rw [hexpr] at h
      cases h
    | ok e => exact Expr.closesOwn_of_ofTokens hexpr
  · rw [hscan] at h
    cases h

/-- no match of a pattern that is bound to the start begins later -/
theorem eq_start_of_ends {p : Place} {s : Spot} {e : Expr} (hs : s ∈ p.starts)
    (h : (starting source e).expr.ends s ≠ []) : s = Spot.start p := by
  obtain ⟨passed, -, rfl⟩ := List.mem_map.mp hs
  cases hlast : passed.getLast? with
  | none => rw [List.getLast?_eq_none_iff.mp hlast, Spot.after_nil]
  | some c =>
    have hbefore : ((Spot.start p).after passed).before = some c := by
      rw [Spot.after_before, hlast]
      rfl
    refine absurd ?_ h
    simp [starting, Expr.ends_seq, Expr.ends_assert, Assertion.holds, hbefore]

end Pattern

/-! ## grammars -/

section
variable {τ : Type}

/-- The grammar does not take the text for a pattern: it is reported wherever it stands for one, a
leaf that has it fails at once, and no text is ignored for it. -/
structure Grammar.Rejects (grammar : Grammar τ) (source : String) : Prop where
  reports_leaf : ∀ rule ∈ grammar.definitions, ∀ clause ∈ rule.clauses, ∀ role,
    .leaf source role ∈ clause.steps →
      ∃ e, .invalidPattern rule.name source e ∈ grammar.compile.issues
  reports_ignorable : source ∈ grammar.ignorables →
    ∃ e, .invalidPattern ignorableRule source e ∈ grammar.compile.issues
  fails : ∀ (i : Nat) (pattern : Option Pattern) (role : Role τ),
    grammar.compile.nodes[i]? = some (.leaf source pattern role) →
      ∀ (ignorables : List Pattern) (m : Machine τ),
        m.start grammar.compile ignorables i = m.answer none
  ignores_nothing : ∀ pattern ∈ grammar.compile.ignorables,
    pattern.source ≠ Pattern.anchoredSource source

theorem Grammar.rejects_of_anchored {source : String} {e : PatternError}
    (h : Pattern.anchored source = .error e) (grammar : Grammar τ) : grammar.Rejects source := by
  have hissues : ∀ rule, patternIssues rule source = [.invalidPattern rule source e] := by
    intro rule
    rw [patternIssues, h]
  have hwiring : ∀ issue ∈ grammar.wiringIssues, issue ∈ grammar.compile.issues := by
    intro issue hissue
    exact List.mem_append_left _ (List.mem_append_right _ hissue)
  refine ⟨?_, ?_, ?_, ?_⟩
  · intro rule hrule clause hclause role hstep
    refine ⟨e, hwiring _ (List.mem_append_left _ ?_)⟩
    refine List.mem_flatMap.mpr ⟨rule, hrule, List.mem_flatMap.mpr ⟨clause, hclause, ?_⟩⟩
    refine List.mem_flatMap.mpr ⟨_, hstep, ?_⟩
    show _ ∈ patternIssues rule.name source
    rw [hissues]
    exact List.mem_singleton_self _
  · intro hsource
    refine ⟨e, hwiring _ (List.mem_append_right _ (List.mem_flatMap.mpr ⟨source, hsource, ?_⟩))⟩
    rw [hissues]
    exact List.mem_singleton_self _
  · intro i pattern role hleaf ignorables m
    have hpattern := (grammar.leaf_of_getElem? hleaf).1
    rw [h] at hpattern
    rw [Machine.start, hleaf, hpattern]
    rfl
  · intro pattern hpattern hsource
    obtain ⟨source', -, hsource'⟩ := List.mem_filterMap.mp hpattern
    have hcompile : Pattern.compile (Pattern.anchoredSource source') = .ok pattern :=
      anchored_eq_ok hsource'.symm
    rw [← Pattern.compile_source hcompile, hsource] at hcompile
    cases h.symm.trans hcompile

end

/-- **Anchoring neither repairs nor unbinds a text that closes only its own groups.**  A text is a
pattern just if it closes only its own groups and can be anchored.  If it closes only its own groups,
then no match begins but at the start when it can be anchored, and no grammar takes it for a pattern
when it is none. -/
theorem anchoring_keeps_verdict (source : String) :
    ((Pattern.compile source).isOk = true ↔
      Pattern.enclosed source = true ∧ (Pattern.anchored source).isOk = true) ∧
    (Pattern.enclosed source = true →
      (∀ pattern, Pattern.anchored source = .ok pattern →
        ∀ p : Place, ∀ s ∈ p.starts, pattern.expr.ends s ≠ [] → s = Spot.start p) ∧
      ((Pattern.compile source).isOk = false →
        ∀ (τ : Type) (grammar : Grammar τ), grammar.Rejects source)) := by
  refine ⟨⟨fun hok => ?_, fun ⟨henclosed, hok⟩ => ?_⟩, fun henclosed => ⟨?_, ?_⟩⟩
  · cases hcompile : Pattern.compile source with
    | error e =>
      rw [hcompile] at hok
      cases hok
    | ok own =>
      have henclosed := Pattern.enclosed_of_compile hcompile
      exact ⟨henclosed, (Pattern.isOk_anchored henclosed).trans hok⟩
  · exact (Pattern.isOk_anchored henclosed).symm.trans hok
  · intro pattern hpattern p s hs hends
    have hsome := Pattern.anchored_of_enclosed henclosed
    rw [hpattern] at hsome
    obtain ⟨own, -, rfl⟩ := Option.map_eq_some_iff.mp hsome.symm
    exact Pattern.eq_start_of_ends hs hends
  · intro hfails τ grammar
    rw [← Pattern.isOk_anchored henclosed] at hfails
    cases hanchored : Pattern.anchored source with
    | error e => exact Grammar.rejects_of_anchored hanchored grammar
    | ok pattern =>
      rw [hanchored] at hfails
      cases hfails

namespace Bound

/-- a rule that reads a text which leaves a group open, and ignorable text of that form -/
def grammar : Grammar Unit :=
  (Grammar.empty.ignore "a(b").declare (Rule.Draft.hide { name := "top" } "a(b")

/-- parentheses in a class or behind a backslash close nothing, so the text is a pattern and matches at
the start only; a text that leaves a group open is none, and is reported where it stands -/
theorem anchoring_keeps_verdict_of_own_groups :
    (Pattern.compile "(a|[)])*\\)").isOk = true ∧
    (∃ pattern, Pattern.anchored "(a|[)])*\\)" = .ok pattern ∧
      ∀ p : Place, ∀ s ∈ p.starts, pattern.expr.ends s ≠ [] → s = Spot.start p) ∧
    (∃ e, .invalidPattern "top" "a(b" e ∈ grammar.compile.issues) ∧
    (∃ e, .invalidPattern ignorableRule "a(b" e ∈ grammar.compile.issues) := by
  have henclosed : Pattern.enclosed "(a|[)])*\\)" = true := by decide +kernel
  have hok : (Pattern.anchored "(a|[)])*\\)").isOk = true := by decide +kernel
  have hopen : Pattern.enclosed "a(b" = true ∧ (Pattern.compile "a(b").isOk = false := by
    decide +kernel
  obtain ⟨hverdict, hstart⟩ := anchoring_keeps_verdict "(a|[)])*\\)"
  have hrejects := ((anchoring_keeps_verdict "a(b").2 hopen.1).2 hopen.2 Unit grammar
  refine ⟨hverdict.mpr ⟨henclosed, hok⟩, ?_, ?_, ?_⟩
  · cases hpattern : Pattern.anchored "(a|[)])*\\)" with
    | error e =>
      rw [hpattern] at hok
      cases hok
    | ok pattern => exact ⟨pattern, rfl, (hstart henclosed).1 pattern hpattern⟩
  · exact hrejects.reports_leaf _ (List.mem_singleton_self _) _ (List.mem_singleton_self _) .hide
      (List.mem_singleton_self _)
  · exact hrejects.reports_ignorable (List.mem_singleton_self _)

end Bound

namespace Unbound

/-- a text that closes the group around it, and opens another one -/
def source : String := "a)|(?:b"

/-- a rule that reads it, and ignorable text of that form -/
def grammar : Grammar Unit :=
  (Grammar.empty.ignore source).declare (Rule.Draft.hide { name := "top" } source)

/-- Such a text is no pattern.  It can be anchored all the same, and then matches where the start is
passed; a grammar reports nothing about it. -/
theorem anchoring_repairs :
    (Pattern.compile source).isOk = false ∧ (Pattern.anchored source).isOk = true ∧
      ((Pattern.anchored source).toOption.bind fun pattern =>
        (pattern.expr.search? (Place.first "xb".toList)).map fun found => found.1.place.offset) =
          some 1 ∧
      grammar.compile.issues = [] ∧ grammar.compile.ignorables.length = 1 := by
  decide +kernel

end Unbound

end Packrat
