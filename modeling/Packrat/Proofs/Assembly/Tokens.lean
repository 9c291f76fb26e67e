import Packrat.Proofs.Assembly.Programs
import Packrat.Proofs.Compiled
import Packrat.Proofs.Tokens

/-!
# Tokens of assembly programs

* `Assembly.ignorables`   blanks and comments, and `Assembly.shown` the place after all of them;
* `Assembly.shown_filler`   a filler is skipped up to the end of its row;
* `Assembly.Clear`        what may follow a token;
* `Assembly.Visible`      a pattern that matches no ignorable text is looked for after all of it;
* `Assembly.look_keyword`, `Assembly.look_label` and others   a token is found where it stands.
-/

namespace Packrat

namespace Assembly

open AssemblyTag (grammar)

/-! ## ignorable text -/

def blankSet : CharSet := .union (.union .none (.one ' ')) (.one '\t')

def inlineSet : CharSet := .compl (.union .none (.one '\n'))

def blanksExpr : Expr := .plus true (.set blankSet false)

def commentExpr : Expr :=
  .seq (.set (.one '#') false) (.star true (.set inlineSet false))

def ignorables : List Pattern := [.starting "[ \\t]+" blanksExpr, .starting "#[^\\n]*" commentExpr]

theorem ignorablesFor_grammar : grammar.ignorablesFor {} = ignorables := rfl

theorem mem_blankSet {c : Char} : blankSet.mem false c = true ↔ c = ' ' ∨ c = '\t' := by
  simp [blankSet, CharSet.mem, Expr.mem_one]

theorem mark_not_mem_blankSet : blankSet.mem false '#' = false := by decide

theorem mem_inlineSet {c : Char} : inlineSet.mem false c = true ↔ c ≠ '\n' := by
  simp [inlineSet, CharSet.mem, Expr.mem_one]

/-- ignorable text begins with the character -/
def isGap (c : Char) : Bool := c == ' ' || c == '\t' || c == '#'

theorem begins_blanks : blanksExpr.Begins isGap := by
  refine Expr.Begins.plus (Expr.begins_set fun c hc => ?_)
  rcases mem_blankSet.mp hc with rfl | rfl <;> decide

theorem begins_comment : commentExpr.Begins isGap := by
  refine Expr.Begins.seq (Expr.begins_set fun c hc => ?_)
  rw [Expr.mem_one, beq_iff_eq] at hc
  rw [hc]
  decide

section
variable {p q : Place} {w : List Char}

theorem endAt?_of_leads (source : String) {e : Expr} {t : Spot} (h : e.Leads (Spot.start p) t) :
    (Pattern.starting source e).endAt? p = some t.place := by
  rw [Pattern.endAt?_starting, h]
  rfl

theorem endAt?_eq_none (source : String) {e : Expr} (h : e.ends (Spot.start p) = []) :
    (Pattern.starting source e).endAt? p = none := by
  rw [Pattern.endAt?_starting, h]
  rfl

theorem skipOne?_eq_none (h : p.rest.head?.any isGap = false) : skipOne? ignorables p = none := by
  have hblanks := endAt?_eq_none "[ \\t]+" (begins_blanks (Spot.start p) h)
  have hcomment := endAt?_eq_none "#[^\\n]*" (begins_comment (Spot.start p) h)
  simp [skipOne?, ignorables, hblanks, hcomment]

theorem offset_lt_of_passes (hne : w ≠ []) (hp : p.Passes w q) : p.offset < q.offset := by
  obtain ⟨c, v, rfl⟩ := List.exists_cons_of_ne_nil hne
  have hpos : 0 < c.utf8Size := c.utf8Size_pos
  have hoffset := hp.offset
  rw [byteLength_cons] at hoffset
  omega

theorem skipOne?_blanks (hne : w ≠ []) (hw : ∀ c ∈ w, c = ' ' ∨ c = '\t') (hp : p.Passes w q)
    (hq : q.rest.head?.any (blankSet.mem false) = false) : skipOne? ignorables p = some q := by
  obtain ⟨t, ht, rfl⟩ := Spot.passes_start hp
  have hleads : blanksExpr.Leads (Spot.start p) t :=
    Expr.leads_run hne (fun c hc => mem_blankSet.mpr (hw c hc)) ht hq
  have hlt := offset_lt_of_passes hne hp
  simp [skipOne?, ignorables, endAt?_of_leads _ hleads, hlt]

theorem skipOne?_comment (hw : '\n' ∉ w) (hp : p.Passes ('#' :: w) q)
    (hq : q.rest = [] ∨ q.rest.head? = some '\n') : skipOne? ignorables p = some q := by
  obtain ⟨t, ht, rfl⟩ := Spot.passes_start hp
  obtain ⟨u, hu, hmore⟩ := Spot.Passes.split (v := ['#']) ht
  have hblanks : blanksExpr.ends (Spot.start p) = [] := by
    refine Expr.ends_run_eq_nil ?_
    rw [hu.rest]
    exact mark_not_mem_blankSet
  have hstop : t.place.rest.head?.any (inlineSet.mem false) = false := by
    rcases hq with hq | hq
    · rw [hq]
      rfl
    · rw [hq]
      decide
  have hinline : ∀ c ∈ w, inlineSet.mem false c = true := by
    intro c hc
    refine mem_inlineSet.mpr ?_
    rintro rfl
    exact hw hc
  have hmark : CharSet.mem false (.one '#') '#' = true := by decide
  have hleads : commentExpr.Leads (Spot.start p) t :=
    (Expr.leads_set hmark hu).seq (Expr.leads_many hinline hmore hstop)
  have hlt := offset_lt_of_passes (List.cons_ne_nil _ _) hp
  simp [skipOne?, ignorables, endAt?_eq_none _ hblanks, endAt?_of_leads _ hleads, hlt]

/-! ## what is shown -/

/-- the place after all ignorable text -/
def shown (p : Place) : Place := skipAll ignorables p

theorem skipAlong_of_visible (left : List Char) (h : p.rest.head?.any isGap = false) :
    skipAlong ignorables left p = p := by
  cases left with
  | nil => rfl
  | cons c left => rw [skipAlong, skipOne?_eq_none h]

theorem shown_of_visible (h : p.rest.head?.any isGap = false) : shown p = p :=
  skipAlong_of_visible _ h

theorem shown_of_skip (hskip : skipOne? ignorables p = some q) (hne : w ≠ [])
    (hp : p.Passes w q) : shown p = skipAlong ignorables (w.tail ++ q.rest) q := by
  obtain ⟨c, v, rfl⟩ := List.exists_cons_of_ne_nil hne
  rw [shown, skipAll, hp.rest, List.cons_append, skipAlong, hskip]
  rfl

theorem shown_blank (hp : p.Passes [' '] q) (hq : q.rest.head?.any isGap = false) :
    shown p = q := by
  have hstop : q.rest.head?.any (blankSet.mem false) = false := by
    cases hhead : q.rest.head? with
    | none => rfl
    | some c =>
      rw [hhead] at hq
      simp only [Option.any_some, isGap, Bool.or_eq_false_iff, beq_eq_false_iff_ne] at hq
      refine Bool.eq_false_iff.mpr fun hmem => ?_
      rcases mem_blankSet.mp hmem with rfl | rfl
      · exact hq.1.1 rfl
      · exact hq.1.2 rfl
  have hskip := skipOne?_blanks (List.cons_ne_nil _ _) (by simp) hp hstop
  rw [shown_of_skip hskip (List.cons_ne_nil _ _) hp, skipAlong_of_visible _ hq]

/-- at the end of a row there is nothing to skip -/
theorem visible_of_end (hq : q.rest = [] ∨ q.rest.head? = some '\n') :
    q.rest.head?.any isGap = false := by
  rcases hq with hq | hq
  · rw [hq]
    rfl
  · rw [hq]
    decide

/-- **A filler is skipped up to the end of its row.** -/
theorem shown_filler (f : Filler) (hp : p.Passes f.text q)
    (hq : q.rest = [] ∨ q.rest.head? = some '\n') : shown p = q := by
  obtain ⟨r, hr, hcomment⟩ := hp.split
  have hq' := visible_of_end hq
  -- after the blanks, there may be a comment to skip
  have hrest : ∀ left, left ≠ [] ∨ f.comment? = none → skipAlong ignorables left r = q := by
    intro left hleft
    cases hf : f.comment? with
    | none =>
      rw [hf] at hcomment
      obtain rfl := (Place.Passes.refl r).unique hcomment
      exact skipAlong_of_visible left hq'
    | some comment =>
      rw [hf] at hcomment
      have hinline := f.inline comment hf
      have hskip := skipOne?_comment hinline hcomment hq
      obtain ⟨c, left, rfl⟩ := List.exists_cons_of_ne_nil (hleft.resolve_right (by simp [hf]))
      rw [skipAlong, hskip]
      exact skipAlong_of_visible left hq'
  by_cases hblanks : f.blanks = []
  · rw [hblanks] at hr
    obtain rfl := (Place.Passes.refl p).unique hr
    refine hrest p.rest ?_
    cases hf : f.comment? with
    | none => exact .inr rfl
    | some comment =>
      rw [hf] at hcomment
      exact .inl (by rw [hcomment.rest]; simp)
  · have hstop : r.rest.head?.any (blankSet.mem false) = false := by
      rw [hcomment.rest]
      cases f.comment? with
      | none =>
        rcases hq with hq | hq
        · simp [hq]
        · simp only [Option.elim, List.nil_append, hq]
          decide
      | some comment => exact mark_not_mem_blankSet
    have hskip := skipOne?_blanks hblanks f.blank hr hstop
    rw [shown_of_skip hskip hblanks hr]
    refine hrest _ ?_
    cases hf : f.comment? with
    | none => exact .inr rfl
    | some comment =>
      rw [hf] at hcomment
      exact .inl (by rw [hcomment.rest]; simp)

/-! ## looking past ignorable text -/

/-- the pattern does not match where ignorable text begins -/
def Visible (pattern : Pattern) : Prop :=
  ∀ p : Place, p.rest.head?.any isGap = true → pattern.matchAt? p = none

theorem Visible.look {pattern : Pattern} (h : Visible pattern) (p : Place) :
    lookAlong? ignorables pattern p.rest p = pattern.matchAt? (shown p) := by
  refine lookAlong?_eq (fun p q hskip => h p ?_) p.rest p
  cases hgap : p.rest.head?.any isGap with
  | true => rfl
  | false =>
    rw [skipOne?_eq_none hgap] at hskip
    cases hskip

theorem visible_of_begins (source : String) {e : Expr} {f : Char → Bool} (h : e.Begins f)
    (hf : ∀ c, f c = true → isGap c = false) : Visible (.starting source e) := by
  intro p hgap
  refine Pattern.matchAt?_eq_none_of_ends source (h _ ?_)
  show p.rest.head?.any f = false
  cases hhead : p.rest.head? with
  | none => rfl
  | some c =>
    have hc : isGap c = true := by simpa [hhead] using hgap
    cases hfc : f c with
    | false => exact hfc
    | true =>
      rw [hf c hfc] at hc
      cases hc

/-- at the end of a token the text ends, or goes on with a gap or a new row -/
def Clear (rest : List Char) : Prop := ∀ c, rest.head? = some c → c ∈ [' ', '\t', '#', '\n']

theorem Clear.not_any {rest : List Char} {f : Char → Bool} (h : Clear rest)
    (hf : [' ', '\t', '#', '\n'].any f = false) : rest.head?.any f = false := by
  cases hhead : rest.head? with
  | none => rfl
  | some c => exact Bool.eq_false_iff.mpr (List.any_eq_false.mp hf c (h c hhead))

/-! ## keywords and symbols -/

/-- the keyword as it is spelled in a pattern -/
def Keyword.source : Keyword → String
  | call => "call\\b"
  | goto => "goto\\b"
  | condition => "if\\b"
  | push => "push\\b"
  | pop => "pop\\b"
  | giveBack => "return\\b"

def keywordPattern (k : Keyword) : Pattern :=
  .starting k.source (.word k.text (.assert .wordBoundary))

theorem anchored_keyword (k : Keyword) : Pattern.anchored k.source = .ok (keywordPattern k) := by
  cases k <;> rfl

theorem visible_keyword (k : Keyword) : Visible (keywordPattern k) := by
  refine visible_of_begins _ (f := fun c => k.text.head? == some c) ?_ ?_
  · cases k <;> exact Expr.begins_word _ (by decide)
  · intro c hc
    rw [beq_iff_eq] at hc
    cases k <;> cases hc <;> decide

theorem look_keyword {k : Keyword} (hp : (shown p).Passes k.text q) (hq : Clear q.rest) :
    ∃ m, lookAlong? ignorables (keywordPattern k) p.rest p = some (m, q) := by
  have hlast : Assertion.isWord k.text.getLast? = true := by cases k <;> decide
  have hnext : q.rest.head?.any isWordCharacter = false := hq.not_any (by decide +kernel)
  obtain ⟨t, ht, rfl⟩ := Spot.passes_start hp
  rw [(visible_keyword k).look]
  exact ⟨_, Pattern.matchAt?_of_leads _ (Expr.leads_bounded ht hlast hnext)⟩

theorem look_keyword_eq_none {k : Keyword} (h : ¬ k.text <+: (shown p).rest) :
    lookAlong? ignorables (keywordPattern k) p.rest p = none := by
  rw [(visible_keyword k).look]
  refine Pattern.matchAt?_eq_none_of_ends _ ?_
  rw [Expr.ends_word]
  exact if_neg h

def symbolPattern (source : String) (text : List Char) : Pattern := .starting source (.literal text)

theorem visible_symbol (source : String) {c : Char} (hc : isGap c = false) (ds : List Char) :
    Visible (symbolPattern source (c :: ds)) := by
  refine visible_of_begins _ (f := fun d => d == c) (fun s hs => ?_) ?_
  · rw [Expr.ends_literal (List.cons_ne_nil c ds)]
    refine if_neg fun hprefix => ?_
    obtain ⟨rest, hrest⟩ := hprefix
    simp [← hrest] at hs
  · intro d hd
    rw [beq_iff_eq] at hd
    rw [hd]
    exact hc

theorem look_symbol (source : String) {c : Char} {ds : List Char} (hc : isGap c = false)
    (hp : (shown p).Passes (c :: ds) q) :
    ∃ m, lookAlong? ignorables (symbolPattern source (c :: ds)) p.rest p = some (m, q) := by
  obtain ⟨t, ht, rfl⟩ := Spot.passes_start hp
  have hleads : (Expr.literal (c :: ds)).Leads (Spot.start (shown p)) t := by
    have hprefix : c :: ds <+: (Spot.start (shown p)).place.rest := ⟨_, ht.rest.symm⟩
    rw [Expr.Leads, Expr.ends_literal (List.cons_ne_nil c ds), if_pos hprefix, ht.eq]
    rfl
  rw [(visible_symbol source hc ds).look]
  exact ⟨_, Pattern.matchAt?_of_leads _ hleads⟩

theorem look_symbol_eq_none (source : String) {c : Char} {ds : List Char} (hc : isGap c = false)
    (h : ¬ c :: ds <+: (shown p).rest) :
    lookAlong? ignorables (symbolPattern source (c :: ds)) p.rest p = none := by
  rw [(visible_symbol source hc ds).look]
  refine Pattern.matchAt?_eq_none_of_ends _ ?_
  rw [Expr.ends_literal (List.cons_ne_nil c ds)]
  exact if_neg h

/-! ## operands -/

def digitsExpr : Expr := .plus true (.set .digit false)

theorem leads_digits {s t : Spot} (n : Digits) (hs : s.Passes n.text t) (ht : Clear t.place.rest) :
    digitsExpr.Leads s t :=
  Expr.leads_run n.some n.all hs (ht.not_any (by decide))

/-- the pattern of a store with its number -/
def Store.source : Store → String
  | accumulator => "a_(\\d+)"
  | register => "r_(\\d+)"
  | address => "@(\\d+)"

def storePattern (x : Store) : Pattern := .starting x.source (.word x.mark (.group 1 digitsExpr))

theorem anchored_store (x : Store) : Pattern.anchored x.source = .ok (storePattern x) := by
  cases x <;> rfl

theorem visible_store (x : Store) : Visible (storePattern x) := by
  refine visible_of_begins _ (f := fun c => x.mark.head? == some c) ?_ ?_
  · cases x <;> exact Expr.begins_word _ (by decide)
  · intro c hc
    rw [beq_iff_eq] at hc
    cases x <;> cases hc <;> decide

theorem look_store {t : Target} (hp : (shown p).Passes t.text q) (hq : Clear q.rest) :
    ∃ m, lookAlong? ignorables (storePattern t.store) p.rest p = some (m, q) ∧
      m.captured = String.ofList t.index.text := by
  obtain ⟨u, hu, rfl⟩ := Spot.passes_start hp
  obtain ⟨v, hmark, hdigits⟩ := hu.split
  have hleads := Expr.leads_word hmark ((leads_digits t.index hdigits hq).group 1)
  have hgroups : (u.close 1 v.place).groups = [(1, v.place, u.place)] := by
    simp [Spot.close, Spot.start, hdigits.eq, hmark.eq]
  have hcount : (Expr.word t.store.mark (.group 1 digitsExpr)).groupCount = 1 := by
    cases t.store <;> rfl
  have hmatch := Pattern.matchAt?_of_leads t.store.source hleads
  rw [(visible_store t.store).look]
  exact ⟨_, hmatch, Pattern.captured_group hcount hgroups hdigits.place⟩

theorem look_store_eq_none {x : Store} (h : ¬ x.mark <+: (shown p).rest) :
    lookAlong? ignorables (storePattern x) p.rest p = none := by
  rw [(visible_store x).look]
  refine Pattern.matchAt?_eq_none_of_ends _ ?_
  rw [Expr.ends_word]
  exact if_neg h

def numberExpr : Expr := .seq (.opt true (.set (.one '-') false)) digitsExpr

def numberPattern : Pattern := .starting "-?\\d+" numberExpr

theorem anchored_number : Pattern.anchored "-?\\d+" = .ok numberPattern := rfl

theorem not_gap_of_digit {c : Char} (h : isDecimalDigit c = true) : isGap c = false := by
  refine Bool.eq_false_iff.mpr fun hgap => ?_
  simp only [isGap, Bool.or_eq_true, beq_iff_eq] at hgap
  rcases hgap with (rfl | rfl) | rfl <;> exact absurd h (by decide)

theorem visible_number : Visible numberPattern := by
  refine visible_of_begins _ (f := fun c => c == '-' || isDecimalDigit c) ?_ fun c hc => ?_
  · refine Expr.Begins.opt_seq (Expr.begins_set fun c hc => ?_)
      (Expr.Begins.plus (Expr.begins_set fun c hc => ?_))
    · rw [Expr.mem_one] at hc
      rw [hc]
      rfl
    · have hdigit : isDecimalDigit c = true := hc
      rw [hdigit, Bool.or_true]
  · rcases (Bool.or_eq_true _ _).mp hc with hc | hc
    · rw [beq_iff_eq] at hc
      rw [hc]
      decide
    · exact not_gap_of_digit hc

theorem look_number {negative : Bool} {n : Digits}
    (hp : (shown p).Passes (Operand.number negative n).text q) (hq : Clear q.rest) :
    ∃ m, lookAlong? ignorables numberPattern p.rest p = some (m, q) ∧
      m.captured = String.ofList (Operand.number negative n).text := by
  obtain ⟨t, ht, rfl⟩ := Spot.passes_start hp
  have hleads : numberExpr.Leads (Spot.start (shown p)) t := by
    cases negative with
    | true =>
      obtain ⟨u, hu, hdigits⟩ := Spot.Passes.split (v := ['-']) ht
      have hsign : CharSet.mem false (.one '-') '-' = true := by decide
      exact (Expr.leads_set hsign hu).opt.seq (leads_digits n hdigits hq)
    | false =>
      have hno : (Expr.set (.one '-') false).ends (Spot.start (shown p)) = [] := by
        obtain ⟨d, ds, hd⟩ := List.exists_cons_of_ne_nil n.some
        have hdigit : isDecimalDigit d = true := n.all d (by rw [hd]; exact List.mem_cons_self)
        have hne : d ≠ '-' := by rintro rfl; exact absurd hdigit (by decide)
        refine Expr.ends_set_eq_nil ?_
        rw [ht.rest]
        simp [Operand.text, hd, Expr.mem_one, hne]
      exact (Expr.leads_opt_of_nil hno).seq (leads_digits n ht hq)
  rw [visible_number.look]
  exact ⟨_, Pattern.matchAt?_of_leads _ hleads, Pattern.captured_found rfl ht.place⟩

/-! ## labels -/

def startSet : CharSet := .union (.union (.union .none (.range 'A' 'Z')) (.range 'a' 'z')) (.one '_')

def partSet : CharSet :=
  .union (.union (.union (.union .none (.range 'A' 'Z')) (.range 'a' 'z')) (.range '0' '9')) (.one '_')

def labelExpr : Expr := .seq (.set startSet false) (.star true (.set partSet false))

def labelPattern : Pattern := .starting AssemblyTag.labelPattern labelExpr

theorem anchored_label : Pattern.anchored AssemblyTag.labelPattern = .ok labelPattern := rfl

theorem mem_startSet (c : Char) : startSet.mem false c = isLabelStart c := by
  simp [startSet, CharSet.mem, isLabelStart, Expr.mem_one]

theorem mem_partSet (c : Char) : partSet.mem false c = isLabelPart c := by
  simp [partSet, CharSet.mem, isLabelPart, Expr.mem_one]

theorem not_gap_of_start {c : Char} (h : isLabelStart c = true) : isGap c = false := by
  refine Bool.eq_false_iff.mpr fun hgap => ?_
  simp only [isGap, Bool.or_eq_true, beq_iff_eq] at hgap
  rcases hgap with (rfl | rfl) | rfl <;> exact absurd h (by decide)

theorem visible_label : Visible labelPattern := by
  refine visible_of_begins _ (f := isLabelStart) (Expr.Begins.seq (Expr.begins_set fun c hc => ?_))
    fun c hc => not_gap_of_start hc
  rw [← mem_startSet]
  exact hc

theorem look_label {l : Label} (hp : (shown p).Passes l.text q) (hq : Clear q.rest) :
    ∃ m, lookAlong? ignorables labelPattern p.rest p = some (m, q) ∧
      m.captured = String.ofList l.text := by
  obtain ⟨t, ht, rfl⟩ := Spot.passes_start hp
  obtain ⟨u, hu, hmore⟩ := Spot.Passes.split (v := [l.first]) ht
  have hfirst : startSet.mem false l.first = true := by
    rw [mem_startSet]
    exact l.start
  have hpart : ∀ c ∈ l.more, partSet.mem false c = true := by
    intro c hc
    rw [mem_partSet]
    exact l.part c hc
  have hleads : labelExpr.Leads (Spot.start (shown p)) t :=
    (Expr.leads_set hfirst hu).seq (Expr.leads_many hpart hmore (hq.not_any (by decide)))
  rw [visible_label.look]
  exact ⟨_, Pattern.matchAt?_of_leads _ hleads, Pattern.captured_found rfl ht.place⟩

/-! ## ends of rows -/

def newlineExpr : Expr := .seq (.opt true (.set (.one '\r') false)) (.set (.one '\n') false)

def newlinePattern : Pattern := .starting "\\r?\\n" newlineExpr

theorem anchored_newline : Pattern.anchored "\\r?\\n" = .ok newlinePattern := rfl

def isRowEnd (c : Char) : Bool := c == '\r' || c == '\n'

theorem begins_newline : newlineExpr.Begins isRowEnd := by
  refine Expr.Begins.opt_seq (Expr.begins_set fun c hc => ?_) (Expr.begins_set fun c hc => ?_)
  · rw [Expr.mem_one, beq_iff_eq] at hc
    rw [hc]
    rfl
  · rw [Expr.mem_one, beq_iff_eq] at hc
    rw [hc]
    rfl

theorem visible_newline : Visible newlinePattern := by
  refine visible_of_begins _ begins_newline fun c hc => ?_
  simp only [isRowEnd, Bool.or_eq_true, beq_iff_eq] at hc
  rcases hc with rfl | rfl <;> decide

theorem look_newline (hp : (shown p).Passes ['\n'] q) :
    ∃ m, lookAlong? ignorables newlinePattern p.rest p = some (m, q) := by
  obtain ⟨t, ht, rfl⟩ := Spot.passes_start hp
  have hno : (Expr.set (.one '\r') false).ends (Spot.start (shown p)) = [] := by
    refine Expr.ends_set_eq_nil ?_
    rw [ht.rest]
    simp [Expr.mem_one]
  have hmem : CharSet.mem false (.one '\n') '\n' = true := by decide
  have hleads : newlineExpr.Leads (Spot.start (shown p)) t :=
    (Expr.leads_opt_of_nil hno).seq (Expr.leads_set hmem ht)
  rw [visible_newline.look]
  exact ⟨_, Pattern.matchAt?_of_leads _ hleads⟩

theorem look_newline_eq_none (h : (shown p).rest.head?.any isRowEnd = false) :
    lookAlong? ignorables newlinePattern p.rest p = none := by
  rw [visible_newline.look]
  exact Pattern.matchAt?_eq_none_of_ends _ (begins_newline _ h)

/-! ## going to the end -/

def endExpr : Expr :=
  .word ['g', 'o', 't', 'o'] (.seq blanksExpr (.word ['e', 'n', 'd'] (.assert .wordBoundary)))

def endPattern : Pattern := .starting "goto[ \\t]+end\\b" endExpr

theorem anchored_end : Pattern.anchored "goto[ \\t]+end\\b" = .ok endPattern := rfl

theorem visible_end : Visible endPattern := by
  refine visible_of_begins _ (f := fun c => c == 'g') (Expr.begins_word _ (by decide)) ?_
  intro c hc
  rw [beq_iff_eq] at hc
  rw [hc]
  decide

theorem look_end {r r' : Place} (hp : (shown p).Passes Keyword.goto.text r) (hr : r.Passes [' '] r')
    (hend : r'.Passes ['e', 'n', 'd'] q) (hq : Clear q.rest) :
    ∃ m, lookAlong? ignorables endPattern p.rest p = some (m, q) := by
  obtain ⟨t, ht, rfl⟩ := Spot.passes_start (hp.trans (hr.trans hend))
  obtain ⟨u, hgoto, hrest⟩ := Spot.Passes.split (v := Keyword.goto.text) ht
  obtain ⟨v, hblank, hword⟩ := Spot.Passes.split (v := [' ']) hrest
  have hstop : v.place.rest.head?.any (blankSet.mem false) = false := by
    have hno : blankSet.mem false 'e' = false := by decide
    rw [hword.rest]
    exact hno
  have hblanks : blanksExpr.Leads u v := by
    refine Expr.leads_run (List.cons_ne_nil _ _) (fun c hc => ?_) hblank hstop
    rw [List.mem_singleton.mp hc]
    decide
  have hlast : Assertion.isWord (['e', 'n', 'd'] : List Char).getLast? = true := by decide
  have hbounded := Expr.leads_bounded hword hlast (hq.not_any (by decide +kernel))
  have hleads : endExpr.Leads (Spot.start (shown p)) t :=
    Expr.leads_word hgoto (hblanks.seq hbounded)
  rw [visible_end.look]
  exact ⟨_, Pattern.matchAt?_of_leads _ hleads⟩

theorem look_end_eq_none (h : ¬ Keyword.goto.text <+: (shown p).rest) :
    lookAlong? ignorables endPattern p.rest p = none := by
  rw [visible_end.look]
  refine Pattern.matchAt?_eq_none_of_ends _ ?_
  rw [endExpr, Expr.ends_word]
  exact if_neg h

theorem isWordCharacter_of_part {c : Char} (h : isLabelPart c = true) :
    isWordCharacter c = true := by
  have hall : ∀ n < 123, isLabelPart (Char.ofNat n) = true →
      isWordCharacter (Char.ofNat n) = true := by
    decide +kernel
  have hlt : c.toNat < 123 := by
    simp only [isLabelPart, Bool.or_eq_true, Bool.and_eq_true, decide_eq_true_eq, beq_iff_eq] at h
    have hle : ∀ d : Char, c ≤ d → c.toNat ≤ d.toNat := fun d hd => hd
    rcases h with ((⟨-, h⟩ | ⟨-, h⟩) | ⟨-, h⟩) | rfl
    · exact Nat.lt_of_le_of_lt (hle _ h) (by decide)
    · exact Nat.lt_of_le_of_lt (hle _ h) (by decide)
    · exact Nat.lt_of_le_of_lt (hle _ h) (by decide)
    · decide
  have hc : Char.ofNat c.toNat = c := Char.ofNat_toNat c
  rw [← hc]
  exact hall c.toNat hlt (by rw [hc]; exact h)

/-- characters of a kind that begin a text with an end of that kind begin what is before the end -/
theorem prefix_of_prefix_append {f : Char → Bool} {ds v rest : List Char}
    (h : ds <+: v ++ rest) (hds : ∀ c ∈ ds, f c = true) (hrest : rest.head?.any f = false) :
    ds <+: v := by
  induction ds generalizing v with
  | nil => exact List.nil_prefix
  | cons d ds ih =>
    obtain ⟨hd, hds⟩ := List.forall_mem_cons.mp hds
    cases v with
    | nil =>
      obtain ⟨more, hmore⟩ := h
      have hhead : rest.head? = some d := by
        rw [List.nil_append] at hmore
        rw [← hmore]
        rfl
      rw [hhead, Option.any_some, hd] at hrest
      cases hrest
    | cons c v =>
      obtain ⟨rfl, hmore⟩ := List.cons_prefix_cons.mp h
      exact List.cons_prefix_cons.mpr ⟨rfl, ih hmore hds⟩

/-- a label that is longer than `end` goes on with a character of a word -/
theorem look_end_of_label {l : Label} {r r' : Place} (hl : l.text ≠ ['e', 'n', 'd'])
    (hp : (shown p).Passes Keyword.goto.text r) (hr : r.Passes [' '] r')
    (hlabel : r'.Passes l.text q) (hq : Clear q.rest) :
    lookAlong? ignorables endPattern p.rest p = none := by
  rw [visible_end.look]
  refine Pattern.matchAt?_eq_none_of_ends _ (List.eq_nil_iff_forall_not_mem.mpr fun t ht => ?_)
  obtain ⟨u, hu, hrest⟩ := Expr.passes_of_mem_word ht
  obtain ⟨v, hv, hword⟩ := Expr.mem_ends_seq.mp hrest
  obtain ⟨w, hne, hw, hblanks⟩ := Expr.passes_of_mem_run hv
  obtain ⟨x, hx, hassert⟩ := Expr.passes_of_mem_word hword
  have hplace : u.place = r := hu.place.unique hp
  -- only one blank stands before the label
  have hafter : u.place.rest = ' ' :: (l.text ++ q.rest) := by rw [hplace, hr.rest, hlabel.rest]; rfl
  obtain ⟨c, w, rfl⟩ := List.exists_cons_of_ne_nil hne
  have hwnil : w = [] := by
    have hsame := hblanks.rest.symm.trans hafter
    cases w with
    | nil => rfl
    | cons d w =>
      simp only [List.cons_append, List.cons.injEq, Label.text] at hsame
      have hd : blankSet.mem false d = true := hw d (by simp)
      have hgap : isGap d = false := by
        rw [hsame.2.1]
        exact not_gap_of_start l.start
      rcases mem_blankSet.mp hd with rfl | rfl <;> exact absurd hgap (by decide)
  subst hwnil
  have hlabelrest : ['e', 'n', 'd'] ++ x.place.rest = l.text ++ q.rest := by
    have hsame := hblanks.rest.symm.trans hafter
    rw [hx.rest] at hsame
    exact (List.cons.inj hsame).2
  have hprefix : ['e', 'n', 'd'] <+: l.text :=
    prefix_of_prefix_append (f := isLabelPart) ⟨_, hlabelrest⟩ (List.all_eq_true.mp rfl)
      (hq.not_any (by decide))
  obtain ⟨more, hmore⟩ := hprefix
  cases more with
  | nil => exact hl (by rw [← hmore]; rfl)
  | cons d more =>
    have hd : isLabelPart d = true := by
      have htext : l.more = 'n' :: 'd' :: d :: more := (List.cons.inj hmore).2.symm
      exact l.part d (by rw [htext]; simp)
    have hxrest : x.place.rest = d :: (more ++ q.rest) := by
      rw [← hmore, List.append_assoc] at hlabelrest
      exact List.append_cancel_left hlabelrest
    rw [Expr.ends_assert] at hassert
    split at hassert
    · next hholds =>
      rw [Assertion.holds, hx.eq, Spot.after_before, ← hx.eq, hxrest] at hholds
      have hword : isWordCharacter 'd' = true := by decide
      simp [Assertion.isWord, isWordCharacter_of_part hd, hword] at hholds
    · cases hassert

end

end Assembly

end Packrat
