import Packrat.Proofs.Arithmetic.Rules
import Packrat.Proofs.Verdicts

/-!
# Which texts are arithmetic expressions

* `Arithmetic.Spelled`       tokens between two places of a text;
* `Arithmetic.settled`       every level comes to a result at every place, and what it finds is a
                             phrase of the level;
* `Arithmetic.Stops`         what follows a place cannot go on a phrase of a level;
* `Arithmetic.Phrase.found`  a phrase that cannot go on is found, and with the same tree;
* `Arithmetic.sum_recognized`   parsing a text always ends, and gives the trees that the grammar
                             derives for it.
-/

namespace Packrat

namespace Arithmetic

/-! ## tokens between places -/

/-- the text between the places consists of the tokens -/
def Spelled (xs : List Lexeme) (p q : Place) : Prop :=
  ∃ chunk, Spells xs chunk ∧ p.Passes chunk q

section
variable {x : Lexeme} {xs ys : List Lexeme} {token : List Char} {p q r : Place}

theorem spelled_nil (p : Place) : Spelled [] p p := ⟨[], .nil, .refl p⟩

theorem Spelled.cons (hx : x.Written token) (hp : p.Takes token q) (h : Spelled xs q r) :
    Spelled (x :: xs) p r := by
  obtain ⟨blank, hblank, hpasses⟩ := hp
  obtain ⟨chunk, hchunk, hq⟩ := h
  exact ⟨_, .cons hblank hx hchunk, hpasses.trans hq⟩

theorem Spelled.append (h : Spelled xs p q) (h' : Spelled ys q r) : Spelled (xs ++ ys) p r := by
  obtain ⟨s, hs, hp⟩ := h
  obtain ⟨t, ht, hq⟩ := h'
  exact ⟨s ++ t, hs.append ht, hp.trans hq⟩

theorem Spelled.eq (h : Spelled [] p q) : p = q := by
  obtain ⟨chunk, hchunk, hp⟩ := h
  cases hchunk
  exact (Place.Passes.refl p).unique hp

theorem Spelled.uncons (h : Spelled (x :: xs) p r) :
    ∃ token q, x.Written token ∧ p.Takes token q ∧ Spelled xs q r := by
  obtain ⟨chunk, hchunk, hp⟩ := h
  cases hchunk with
  | cons hblank hx hrest =>
    obtain ⟨q, hq, hr⟩ := hp.split
    exact ⟨_, q, hx, ⟨_, hblank, hq⟩, _, hrest, hr⟩

theorem Spelled.split (h : Spelled (xs ++ ys) p r) : ∃ q, Spelled xs p q ∧ Spelled ys q r := by
  obtain ⟨chunk, hchunk, hp⟩ := h
  obtain ⟨s, t, rfl, hs, ht⟩ := hchunk.split
  obtain ⟨q, hq, hr⟩ := hp.split
  exact ⟨q, ⟨s, hs, hq⟩, t, ht, hr⟩

theorem Spelled.length_le (h : Spelled xs p q) : q.rest.length ≤ p.rest.length := by
  obtain ⟨chunk, -, hp⟩ := h
  exact hp.length_le

theorem Spelled.offset_le (h : Spelled xs p q) : p.offset ≤ q.offset := by
  obtain ⟨chunk, -, hp⟩ := h
  exact Place.offset_le hp.le

end

/-! ## what is found is a phrase -/

/-- the level comes to a result at `p`, and what it finds is a phrase of the level -/
def Settled (l : Level) (p : Place) : Prop :=
  grammar.Misses [.blank] l.name p ∨
    ∃ t q xs, grammar.Finds [.blank] l.name p (.kept t) q ∧ Phrase l xs t ∧ Spelled xs p q

section
variable {op : Operator} {p : Place}

/-- operands are read as long as an operator and an operand follow -/
theorem exists_follows (h : ∀ q : Place, q.rest.length < p.rest.length → Settled op.operand q) :
    ∃ ts q xs, Follows op p ts q ∧ Tails op xs ts ∧ Spelled xs p q := by
  induction hn : p.rest.length using Nat.strongRecOn generalizing p with
  | _ n ih =>
    subst hn
    -- an operator without an operand is left where it is
    by_cases hnext : p.next? = some op.symbol
    · obtain ⟨q, hq⟩ := Place.exists_takes hnext
      have hlt := hq.length_lt (List.cons_ne_nil _ _)
      rcases h q hlt with hmiss | ⟨t, q', xs, hfound, hphrase, hspelled⟩
      · exact ⟨[], p, [], follows_nil (misses_tail_of_operand hq hmiss), .nil, spelled_nil p⟩
      · have hlt' : q'.rest.length < p.rest.length := Nat.lt_of_le_of_lt hspelled.length_le hlt
        have hoffset : p.offset < q'.offset := Nat.lt_of_lt_of_le hq.offset_lt hspelled.offset_le
        obtain ⟨ts, q'', ys, hts, htails, hys⟩ :=
          ih _ hlt' (fun r hr => h r (Nat.lt_trans hr hlt')) rfl
        exact ⟨t :: ts, q'', _, .cons hq hfound hphrase.spliced hoffset hts, .cons hphrase htails,
          .cons (.operator op) hq (hspelled.append hys)⟩
    · exact ⟨[], p, [], follows_nil (misses_tail_of_symbol hnext), .nil, spelled_nil p⟩

theorem settled_list (h : Settled op.operand p)
    (hsmaller : ∀ q : Place, q.rest.length < p.rest.length → Settled op.operand q) :
    Settled (.list op) p := by
  rcases h with hmiss | ⟨t, q, xs, hfound, hphrase, hspelled⟩
  · exact .inl (misses_list hmiss)
  · have hle := hspelled.length_le
    obtain ⟨ts, q', ys, hts, htails, hys⟩ :=
      exists_follows fun r hr => hsmaller r (Nat.lt_of_lt_of_le hr hle)
    right
    cases ts with
    | nil =>
      cases htails
      obtain rfl := hys.eq
      exact ⟨t, q, xs, finds_one hfound hts, .one hphrase, hspelled⟩
    | cons u us =>
      exact ⟨_, q', xs ++ ys, finds_several hfound hphrase.spliced hts, .several hphrase htails,
        hspelled.append hys⟩

theorem settled_atom
    (hsmaller : ∀ (l : Level) (q : Place), q.rest.length < p.rest.length → Settled l q) :
    Settled .atom p := by
  cases hdigit : p.next?.any isDecimalDigit with
  | true =>
    obtain ⟨cs, q, found, hcs, hq, htext, hlook⟩ := look?_number hdigit
    have hnumber := finds_number hlook
    rw [htext] at hnumber
    exact .inr ⟨_, q, [.number cs], hnumber, .number, .cons (.number hcs) hq (spelled_nil q)⟩
  | false =>
    have hnumber := fails_number hdigit
    by_cases hopen : p.next? = some '('
    · have hnegated : grammar.Fails [.blank] negatedClause p :=
        fails_negated (by rw [hopen]; decide)
      obtain ⟨q, hq⟩ := Place.exists_takes hopen
      rcases hsmaller (.list .plus) q (hq.length_lt (List.cons_ne_nil _ _)) with
        hmiss | ⟨t, q', xs, hfound, hphrase, hspelled⟩
      · have hgroup : grammar.Breaks [.blank] groupClause.steps p :=
          Grammar.breaks_after_symbol isSymbol_opening hq hmiss.breaks
        exact .inl (misses_atom hnumber hgroup.fails hnegated)
      · -- the sum has taken all it can, so nothing else can stand before the parenthesis
        by_cases hclose : q'.next? = some ')'
        · obtain ⟨q'', hq''⟩ := Place.exists_takes hclose
          have hlast : Spelled [.closing] q' q'' := .cons .closing hq'' (spelled_nil q'')
          exact .inr ⟨t, q'', _, finds_group hq hfound hq'', .group hphrase,
            .cons .opening hq (hspelled.append hlast)⟩
        · have hgroup : grammar.Breaks [.blank] groupClause.steps p :=
            Grammar.breaks_after_symbol isSymbol_opening hq
              (hfound.breaks (Grammar.breaks_symbol isSymbol_closing hclose))
          exact .inl (misses_atom hnumber hgroup.fails hnegated)
    · have hgroup := fails_group hopen
      by_cases hminus : p.next? = some '-'
      · obtain ⟨q, hq⟩ := Place.exists_takes hminus
        rcases hsmaller .atom q (hq.length_lt (List.cons_ne_nil _ _)) with
          hmiss | ⟨t, q', xs, hfound, hphrase, hspelled⟩
        · have hnegated : grammar.Breaks [.blank] negatedClause.steps p :=
            Grammar.breaks_after_symbol isSymbol_minus hq hmiss.breaks
          exact .inl (misses_atom hnumber hgroup hnegated.fails)
        · exact .inr ⟨_, q', _, finds_negated hq hfound hphrase.spliced, .negated hphrase,
            .cons (.operator .minus) hq hspelled⟩
      · exact .inl (misses_atom hnumber hgroup (fails_negated hminus))

/-- **Every level comes to a result at every place, and what it finds is a phrase of the level.** -/
theorem settled (l : Level) (p : Place) : Settled l p := by
  induction hn : p.rest.length using Nat.strongRecOn generalizing l p with
  | _ n ih =>
    subst hn
    have hsmaller : ∀ (l : Level) (q : Place), q.rest.length < p.rest.length → Settled l q :=
      fun l q hq => ih _ hq l q rfl
    -- at the same place, each level rests on the one below it
    have hatom : Settled .atom p := settled_atom hsmaller
    have hquot : Settled (.list .divided) p := settled_list hatom (hsmaller _)
    have hprod : Settled (.list .times) p := settled_list hquot (hsmaller _)
    have hdiff : Settled (.list .minus) p := settled_list hprod (hsmaller _)
    have hsum : Settled (.list .plus) p := settled_list hdiff (hsmaller _)
    match l with
    | .list .plus => exact hsum
    | .list .minus => exact hdiff
    | .list .times => exact hprod
    | .list .divided => exact hquot
    | .atom => exact hatom

end

/-! ## a phrase is found -/

/-- the symbols that may follow a phrase of the level, in the text of a sum -/
def Level.after : Level → List Char
  | .list .plus => [')']
  | .list .minus => ['+', ')']
  | .list .times => ['-', '+', ')']
  | .list .divided => ['*', '-', '+', ')']
  | .atom => ['/', '*', '-', '+', ')']

theorem Operator.after_operand (op : Operator) :
    op.operand.after = op.symbol :: (Level.list op).after := by
  cases op <;> rfl

theorem Operator.symbol_not_mem_after (op : Operator) : op.symbol ∉ (Level.list op).after := by
  cases op <;> decide

/-- at `q` the text ends or goes on with a symbol that may follow the level -/
def Stops (l : Level) (q : Place) : Prop := ∀ c, q.next? = some c → c ∈ l.after

section
variable {op : Operator} {l : Level} {p q : Place} {xs : List Lexeme} {t : Tree Arithmetic}
  {ts : List (Tree Arithmetic)}

theorem Stops.operand (h : Stops (.list op) q) : Stops op.operand q := by
  intro c hc
  rw [op.after_operand]
  exact List.mem_cons_of_mem _ (h c hc)

theorem stops_of_takes {c : Char} (hq : p.Takes [c] q) (hc : isWhiteSpace c = false)
    (hmem : c ∈ l.after) : Stops l p := by
  intro d hd
  rw [hq.next? hc] at hd
  cases hd
  exact hmem

theorem Stops.misses_tail (h : Stops (.list op) q) : grammar.Misses [.blank] (tailName op.name) q :=
  misses_tail_of_symbol fun hnext => op.symbol_not_mem_after (h _ hnext)

/-- an operand is followed by the operator, or else by what follows the list -/
theorem Tails.stops (h : Tails op xs ts) (hx : Spelled xs p q) (hq : Stops (.list op) q) :
    Stops op.operand p := by
  cases h with
  | nil =>
    obtain rfl := hx.eq
    exact hq.operand
  | cons _ _ =>
    obtain ⟨token, r, hwritten, hr, -⟩ := hx.uncons
    cases hwritten
    refine stops_of_takes hr op.isSymbol.visible ?_
    rw [op.after_operand]
    exact List.mem_cons_self

/-- a number is not prolonged by what may follow it -/
theorem Stops.number (h : Stops .atom q) :
    q.rest.head?.any isDecimalDigit = false ∧ q.rest.head? ≠ some '.' := by
  cases hhead : q.rest.head? with
  | none => exact ⟨rfl, nofun⟩
  | some c =>
    -- only if no white space follows is the next symbol the next character
    cases hblank : isWhiteSpace c with
    | true =>
      have hdigit : isDecimalDigit c = false := by
        cases hdigit : isDecimalDigit c with
        | false => rfl
        | true =>
          rw [not_whiteSpace_of_digit hdigit] at hblank
          cases hblank
      refine ⟨hdigit, fun hpoint => ?_⟩
      cases hpoint
      exact absurd hblank (by decide)
    | false =>
      have hself : q.sweep isWhiteSpace = q := Place.sweep_eq_self (by rw [hhead]; exact hblank)
      have hmem : c ∈ Level.atom.after := h c (by rw [Place.next?, hself, hhead])
      have hall : (Level.atom.after.all fun c => !isDecimalDigit c && c != '.') = true := by decide
      have hc := List.all_eq_true.mp hall c hmem
      simp only [Bool.and_eq_true, Bool.not_eq_true', bne_iff_ne] at hc
      obtain ⟨hdigit, hpoint⟩ := hc
      exact ⟨hdigit, fun h => hpoint (Option.some.inj h)⟩

end

mutual

/-- **A phrase is found where it stands, unless it could go on**, with the same tree up to spans. -/
theorem Phrase.found {l : Level} {xs : List Lexeme} {t : Tree Arithmetic} {p q : Place}
    (h : Phrase l xs t) (hx : Spelled xs p q) (hq : Stops l q) :
    ∃ u, t.bare = u.bare ∧ grammar.Finds [.blank] l.name p (.kept u) q := by
  -- the recursion is on the derivation: each production has its law, and the token after each part
  -- keeps that part from going on
  match h with
  | .number =>
    obtain ⟨token, r, hwritten, hr, hnil⟩ := hx.uncons
    obtain rfl := hnil.eq
    cases hwritten with
    | number hnumeral =>
      obtain ⟨hdigit, hpoint⟩ := hq.number
      obtain ⟨found, htext, hlook⟩ := look?_numeral hnumeral hr hdigit hpoint
      have hfound := finds_number hlook
      rw [htext] at hfound
      exact ⟨_, by rw [Tree.bare_leaf, Tree.bare_leaf], hfound⟩
  | .group h =>
    obtain ⟨token, r, hopening, hr, hrest⟩ := hx.uncons
    obtain ⟨s, hs, hlast⟩ := hrest.split
    obtain ⟨token', s', hclosing, hs', hnil⟩ := hlast.uncons
    obtain rfl := hnil.eq
    cases hopening
    cases hclosing
    have hstops : Stops (.list .plus) s :=
      stops_of_takes hs' isSymbol_closing.visible List.mem_cons_self
    obtain ⟨u, hu, hfound⟩ := h.found hs hstops
    exact ⟨u, hu, finds_group hr hfound hs'⟩
  | .negated h =>
    obtain ⟨token, r, hminus, hr, hrest⟩ := hx.uncons
    cases hminus
    obtain ⟨u, hu, hfound⟩ := h.found hrest hq
    refine ⟨_, ?_, finds_negated hr hfound (h.congr hu).spliced⟩
    rw [Tree.bare_branch, Tree.bare_branch, List.map_singleton, List.map_singleton, hu]
  | .one h =>
    obtain ⟨u, hu, hfound⟩ := h.found hx hq.operand
    exact ⟨u, hu, finds_one hfound (follows_nil hq.misses_tail)⟩
  | .several h htails =>
    obtain ⟨r, hr, hrest⟩ := hx.split
    obtain ⟨u, hu, hfound⟩ := h.found hr (htails.stops hrest hq)
    obtain ⟨us, hus, hfollows⟩ := htails.follows hrest hq
    obtain ⟨v, vs, rfl, -, -⟩ := Tree.map_bare_eq_cons hus
    refine ⟨_, ?_, finds_several hfound (h.congr hu).spliced hfollows⟩
    rw [Tree.bare_branch, Tree.bare_branch]
    exact congrArg (Tree.branch _) (congrArg₂ List.cons hu hus)

theorem Tails.follows {op : Operator} {xs : List Lexeme} {ts : List (Tree Arithmetic)}
    {p q : Place} (h : Tails op xs ts) (hx : Spelled xs p q) (hq : Stops (.list op) q) :
    ∃ us, ts.map Tree.bare = us.map Tree.bare ∧ Follows op p us q := by
  match h with
  | .nil =>
    obtain rfl := hx.eq
    exact ⟨[], rfl, follows_nil hq.misses_tail⟩
  | .cons h htails =>
    obtain ⟨token, r, hoperator, hr, hrest⟩ := hx.uncons
    obtain ⟨s, hs, hmore⟩ := hrest.split
    cases hoperator
    obtain ⟨u, hu, hfound⟩ := h.found hs (htails.stops hmore hq)
    obtain ⟨us, hus, hfollows⟩ := htails.follows hmore hq
    have hoffset : p.offset < s.offset := Nat.lt_of_lt_of_le hr.offset_lt hs.offset_le
    refine ⟨u :: us, ?_, .cons hr hfound (h.congr hu).spliced hoffset hfollows⟩
    rw [List.map_cons, List.map_cons, hu, hus]

end

/-! ## texts -/

theorem ruleIndex?_sum : grammar.compile.ruleIndex? "sum" = some 0 := by decide +kernel

section
variable {s : String} {t : Tree Arithmetic} {q : Place}

/-- **A text that is parsed is an expression with that tree.** -/
theorem expresses_of_parse? {limit : Nat}
    (h : grammar.compile.parse? limit "sum" s {} = some (.ok t)) : Expresses s.toList t := by
  rcases settled (.list .plus) (Place.first s.toList) with
    hmiss | ⟨u, q, xs, hfound, hphrase, body, hspells, hpasses⟩
  · obtain ⟨e, he⟩ := Grammar.parse?_of_misses ruleIndex?_sum rfl hmiss
    cases (he _).mp ⟨limit, h⟩
  · have houtcome := (Grammar.parse?_of_finds ruleIndex?_sum rfl hfound _).mp ⟨limit, h⟩
    split at houtcome
    · next hnext =>
      cases houtcome
      exact ⟨xs, body, q.rest, hpasses.rest, hspells, skipAll_blank_eq_nil.mp hnext, hphrase⟩
    · cases houtcome

/-- **An expression is parsed, and with the same tree up to spans.** -/
theorem parse?_of_expresses (h : Expresses s.toList t) :
    ∃ limit u, grammar.compile.parse? limit "sum" s {} = some (.ok u) ∧ t.bare = u.bare := by
  obtain ⟨xs, body, blank, hs, hspells, hblank, hphrase⟩ := h
  obtain ⟨q, hq, rfl⟩ : ∃ q, (Place.first s.toList).Passes body q ∧ q.rest = blank :=
    Place.exists_passes hs
  have hnext : q.next? = none := Place.next?_eq_none.mpr hblank
  have hstops : Stops (.list .plus) q := by
    intro c hc
    rw [hnext] at hc
    cases hc
  obtain ⟨u, hu, hfound⟩ := hphrase.found ⟨body, hspells, hq⟩ hstops
  have hend := skipAll_blank_eq_nil.mpr hblank
  obtain ⟨limit, hparse⟩ :=
    (Grammar.parse?_of_finds ruleIndex?_sum rfl hfound (.ok u)).mpr (if_pos hend).symm
  exact ⟨limit, u, hparse, hu⟩

end

/-- **Parsing a text as a sum gives the tree of its derivation, if the text has one.**  Parsing always
ends, with one outcome whatever the limit, and there is a tree exactly for the texts that the grammar
derives: that of the derivation, up to spans. -/
theorem sum_recognized (s : String) :
    (∃ outcome, ∀ other, (∃ limit, grammar.compile.parse? limit "sum" s {} = some other) ↔
      other = outcome) ∧
    ∀ t, (∃ limit u, grammar.compile.parse? limit "sum" s {} = some (.ok u) ∧ u.same t = true) ↔
      Expresses s.toList t := by
  constructor
  · rcases settled (.list .plus) (Place.first s.toList) with hmiss | ⟨t, q, xs, hfound, -, -⟩
    · obtain ⟨e, he⟩ := Grammar.parse?_of_misses ruleIndex?_sum rfl hmiss
      exact ⟨.error e, he⟩
    · exact ⟨_, Grammar.parse?_of_finds ruleIndex?_sum rfl hfound⟩
  · intro t
    constructor
    · rintro ⟨limit, u, hparse, hsame⟩
      exact (expresses_of_parse? hparse).congr ((Tree.same_iff u t).mp hsame)
    · intro h
      obtain ⟨limit, u, hparse, hu⟩ := parse?_of_expresses h
      exact ⟨limit, u, hparse, (Tree.same_iff u t).mpr hu.symm⟩

/-- two infix minus signs and one before an atom: three operands of one difference -/
theorem sum_recognized_of_difference :
    ∃ t, Expresses " 8 - -2*(1.5 + 3)-4 ".toList t ∧ t.tag = some .sub ∧ t.children.length = 3 := by
  have hparse : ((grammar.compile.parse? 1000 "sum" " 8 - -2*(1.5 + 3)-4 " {}).bind
      Except.toOption).map (fun t => (t.tag, t.children.length)) = some (some .sub, 3) := by
    decide +kernel
  obtain ⟨t, ht, hview⟩ := Option.map_eq_some_iff.mp hparse
  obtain ⟨outcome, houtcome, hok⟩ := Option.bind_eq_some_iff.mp ht
  obtain ⟨htag, hlength⟩ := Prod.mk.inj hview
  cases outcome with
  | error e => cases hok
  | ok u =>
    cases hok
    have hsame : t.same t = true := (Tree.same_iff t t).mpr rfl
    have hexpresses := ((sum_recognized _).2 t).mp ⟨1000, t, houtcome, hsame⟩
    exact ⟨t, hexpresses, htag, hlength⟩

end Arithmetic

end Packrat
