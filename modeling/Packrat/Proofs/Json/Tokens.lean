import Packrat.Proofs.Json.Documents
import Packrat.Proofs.Tokens

/-!
# Tokens of JSON documents

* `Json.Stops`          what may follow a value;
* `Json.tokens_word`, `Json.tokens_string`, `Json.tokens_number`   what the patterns match;
* `Json.Word.look`, `Json.Quotable.look`, `Json.Numeral.look`      a token is found where it stands, if
                        what follows cannot be part of it.
-/

namespace Packrat

namespace Json

/-- at `q` the text ends, or goes on with a comma or the end of a container -/
def Stops (q : Place) : Prop := ∀ c, q.next? = some c → c ∈ [',', ']', '\x7d']

variable {p q : Place}

theorem stops_of_takes {c : Char} (hq : p.Takes [c] q) (hc : isWhiteSpace c = false)
    (hmem : c ∈ [',', ']', '\x7d']) : Stops p := by
  intro d hd
  rw [hq.next? hc] at hd
  cases hd
  exact hmem

/-- a class of characters without white space and without those symbols cannot go on -/
theorem Stops.not_any {f : Char → Bool} (h : Stops q)
    (hblank : ∀ c, isWhiteSpace c = true → f c = false)
    (hsymbols : [',', ']', '\x7d'].any f = false) : q.rest.head?.any f = false := by
  cases hhead : q.rest.head? with
  | none => rfl
  | some c =>
    cases hc : isWhiteSpace c with
    | true => exact hblank c hc
    | false =>
      -- no white space follows, so the next symbol is the next character
      have hself : q.sweep isWhiteSpace = q := Place.sweep_eq_self (by rw [hhead]; exact hc)
      have hnext : q.next? = some c := by rw [Place.next?, hself, hhead]
      exact Bool.eq_false_iff.mpr (List.any_eq_false.mp hsymbols c (h c hnext))

theorem Stops.not_digit (h : Stops q) : q.rest.head?.any isDecimalDigit = false := by
  refine h.not_any (fun c hc => ?_) (by decide)
  cases hdigit : isDecimalDigit c with
  | false => rfl
  | true =>
    rw [not_whiteSpace_of_digit hdigit] at hc
    cases hc

theorem Stops.not_char (h : Stops q) {d : Char} (hd : isWhiteSpace d = false)
    (hmem : d ∉ [',', ']', '\x7d']) : q.rest.head? ≠ some d := by
  intro hhead
  have hany := h.not_any (f := fun c => c == d) (fun c hc => ?_) ?_
  · simp [hhead] at hany
  · exact beq_eq_false_iff_ne.mpr fun hcd => by simp [hcd, hd] at hc
  · exact List.any_eq_false.mpr fun c hc hcd => hmem (beq_iff_eq.mp hcd ▸ hc)

/-! ## words -/

namespace Word

/-- the word as it is spelled in a pattern -/
def source : Word → String
  | .trueWord => "true\\b"
  | .falseWord => "false\\b"
  | .nullWord => "null\\b"

/-- the word, and then no more characters of a word -/
def expr (x : Word) : Expr := .word x.text (.assert .wordBoundary)

end Word

def wordPattern (x : Word) : Pattern := .starting x.source x.expr

theorem anchored_word (x : Word) : Pattern.anchored x.source = .ok (wordPattern x) := by
  cases x <;> rfl

theorem tokens_word (x : Word) : (wordPattern x).Tokens fun w _ => w = x.text where
  sound := by
    intro p q m h
    obtain ⟨t, ht, -, rfl⟩ := Pattern.mem_ends_of_matchAt? h
    obtain ⟨u, hu, hassert⟩ := Expr.passes_of_mem_word ht
    have htu : t = u := by
      rw [Expr.ends_assert] at hassert
      split at hassert
      · exact List.mem_singleton.mp hassert
      · cases hassert
    exact ⟨x.text, rfl, htu ▸ hu.place⟩
  visible := by
    rintro w _ rfl
    cases x <;> exact ⟨_, _, rfl, by decide⟩

theorem next?_of_word {x : Word} (hp : p.Takes x.text q) : p.next? = x.text.head? := by
  cases x <;> exact hp.next? (by decide)

theorem look_word_eq_none {x : Word} (h : p.next? ≠ x.text.head?) :
    lookAlong? [.blank] (wordPattern x) p.rest p = none := by
  refine (tokens_word x).look_eq_none fun c v _ hc hnext => h ?_
  rw [hnext, ← hc]
  rfl

theorem Word.look {x : Word} (hp : p.Takes x.text q) (hq : Stops q) :
    ∃ m, lookAlong? [.blank] (wordPattern x) p.rest p = some (m, q) ∧ True := by
  have hnext := hq.not_any (fun c hc => not_word_of_whiteSpace hc) (by decide +kernel)
  have hlast : Assertion.isWord x.text.getLast? = true := by cases x <;> decide
  refine (tokens_word x).look_of_takes ⟨"", rfl⟩ hp fun p hp => ?_
  obtain ⟨t, ht, rfl⟩ := Spot.passes_start hp
  exact ⟨_, Pattern.matchAt?_of_leads _ (Expr.leads_bounded ht hlast hnext), trivial⟩

/-! ## strings -/

/-- a character that stands for itself, or a backslash and the character after it -/
def characterExpr : Expr :=
  .alt (.set (.compl (.union (.union .none (.one '"')) (.one '\\'))) false)
    (.seq (.set (.one '\\') false) (.set (.compl (.one '\n')) false))

/-- any number of them between quotation marks -/
def stringExpr : Expr :=
  .seq (.set (.one '"') false)
    (.seq (.group 1 (.star true characterExpr)) (.set (.one '"') false))

def stringPattern : Pattern := .starting JsonTag.stringPattern stringExpr

theorem anchored_string : Pattern.anchored JsonTag.stringPattern = .ok stringPattern := rfl

section
variable {s t u : Spot} {body : List Char}

theorem firm_character : characterExpr.Firm :=
  (Expr.firm_set _ _).alt (Expr.firm_set _ _).seq

theorem passes_of_mem_character (s t : Spot) (h : t ∈ characterExpr.ends s) :
    ∃ w, s.Passes w t ∧ ∀ v, Quotable v → Quotable (w ++ v) := by
  rcases Expr.mem_ends_alt.mp h with h | h
  · obtain ⟨c, hc, hpasses⟩ := Expr.passes_of_mem_set h
    have hplain : c ≠ '"' ∧ c ≠ '\\' := by simpa [CharSet.mem, Expr.mem_one] using hc
    exact ⟨[c], hpasses, fun v hv => .plain hplain.1 hplain.2 hv⟩
  · obtain ⟨u, hu, ht⟩ := Expr.mem_ends_seq.mp h
    obtain ⟨b, hb, hbackslash⟩ := Expr.passes_of_mem_set hu
    obtain ⟨c, hc, hpasses⟩ := Expr.passes_of_mem_set ht
    have hb' : b = '\\' := by simpa [Expr.mem_one] using hb
    have hc' : c ≠ '\n' := by simpa [CharSet.mem, Expr.mem_one] using hc
    refine ⟨[b, c], hbackslash.trans hpasses, fun v hv => ?_⟩
    rw [hb']
    exact .escaped hc' hv

/-- up to the closing quotation mark, each character or escaped character is one round -/
theorem Quotable.rounds (h : Quotable body) (hs : s.Passes body t)
    (hquote : t.place.rest.head? = some '"') : characterExpr.Rounds s t := by
  induction h generalizing s with
  | nil =>
    obtain rfl : t = s := hs.eq
    refine .stop (Expr.ends_alt_eq_nil ?_ (Expr.ends_seq_eq_nil ?_))
    · exact Expr.ends_set_eq_nil (by simp [hquote, CharSet.mem, Expr.mem_one])
    · exact Expr.ends_set_eq_nil (by simp [hquote, Expr.mem_one])
  | @plain c cs hc hc' _ ih =>
    obtain ⟨u, hu, ht⟩ := Spot.Passes.split (v := [c]) hs
    have hmem : CharSet.mem false (.compl (.union (.union .none (.one '"')) (.one '\\'))) c = true := by
      simp [CharSet.mem, Expr.mem_one, hc, hc']
    exact .round (List.cons_ne_nil _ _) hu (Expr.leads_set hmem hu).alt_left (ih ht)
  | @escaped c cs hc _ ih =>
    obtain ⟨v, hv, ht⟩ := Spot.Passes.split (v := ['\\', c]) hs
    obtain ⟨u, hu, hv'⟩ := Spot.Passes.split (v := ['\\']) hv
    have hmem : CharSet.mem false (.compl (.one '\n')) c = true := by
      simp [CharSet.mem, Expr.mem_one, hc]
    have hbackslash : CharSet.mem false (.one '\\') '\\' = true := by simp [Expr.mem_one]
    have hno : (Expr.set (.compl (.union (.union .none (.one '"')) (.one '\\'))) false).ends s = [] :=
      Expr.ends_set_eq_nil (by simp [hu.rest, CharSet.mem, Expr.mem_one])
    have hleads := (Expr.leads_set hbackslash hu).seq (Expr.leads_set hmem hv')
    exact .round (List.cons_ne_nil _ _) hv (hleads.alt_right hno) (ih ht)

end

/-- the text of a string, and what is kept of it -/
def IsString (w : List Char) (text : String) : Prop :=
  ∃ body, Quotable body ∧ w = '"' :: (body ++ ['"']) ∧ text = String.ofList body

theorem tokens_string : stringPattern.Tokens IsString where
  sound := by
    intro p q m h
    obtain ⟨t, ht, rfl, rfl⟩ := Pattern.mem_ends_of_matchAt? h
    obtain ⟨u, hu, hrest⟩ := Expr.mem_ends_seq.mp ht
    obtain ⟨v, hv, hlast⟩ := Expr.mem_ends_seq.mp hrest
    obtain ⟨v', hv', rfl⟩ := Expr.mem_ends_group.mp hv
    obtain ⟨a, ha, hopen⟩ := Expr.passes_of_mem_set hu
    obtain ⟨b, hb, hclose⟩ := Expr.passes_of_mem_set hlast
    obtain ⟨body, hbody, hpasses⟩ :=
      firm_character.passes_of_mem_star .nil passes_of_mem_character hv'
    have ha' : a = '"' := by simpa [Expr.mem_one] using ha
    have hb' : b = '"' := by simpa [Expr.mem_one] using hb
    have hgroups : t.groups = [(1, u.place, v'.place)] := by
      rw [hclose.eq, hopen.eq]
      simp [Spot.close, Spot.start, hpasses.eq, hopen.eq]
    refine ⟨'"' :: (body ++ ['"']), ⟨body, hbody, rfl, ?_⟩, ?_⟩
    · exact Pattern.captured_group rfl hgroups hpasses.place
    · have hall := hopen.place.trans (hpasses.place.trans hclose.place)
      rw [ha', hb'] at hall
      exact hall
  visible := by
    rintro w text ⟨body, -, rfl, -⟩
    exact ⟨_, _, rfl, by decide⟩

theorem Quotable.look {body : List Char} (h : Quotable body)
    (hp : p.Takes ('"' :: (body ++ ['"'])) q) :
    ∃ m, lookAlong? [.blank] stringPattern p.rest p = some (m, q) ∧
      m.captured = String.ofList body := by
  refine tokens_string.look_of_takes ⟨_, body, h, rfl, rfl⟩ hp fun p hp => ?_
  obtain ⟨t, ht, rfl⟩ := Spot.passes_start hp
  obtain ⟨u, hopen, hrest⟩ := Spot.Passes.split (v := ['"']) ht
  obtain ⟨v, hbody, hclose⟩ := hrest.split
  have hquote : CharSet.mem false (.one '"') '"' = true := by simp [Expr.mem_one]
  have hrounds := h.rounds hbody (by rw [hclose.rest]; rfl)
  -- the group is closed before the last quotation mark
  obtain ⟨t', ht', hplace⟩ : ∃ t', (v.close 1 u.place).Passes ['"'] t' ∧ t'.place = t.place := by
    obtain ⟨t', ht', -⟩ := Spot.exists_passes (s := v.close 1 u.place) hclose.rest
    exact ⟨t', ht', ht'.place.unique hclose.place⟩
  have hleads := (Expr.leads_set hquote hopen).seq
    (((hrounds.leads firm_character).group 1).seq (Expr.leads_set hquote ht'))
  have hgroups : t'.groups = [(1, u.place, v.place)] := by
    rw [ht'.eq]
    simp [Spot.close, Spot.start, hbody.eq, hopen.eq]
  rw [← hplace]
  exact ⟨_, Pattern.matchAt?_of_leads _ hleads, Pattern.captured_group rfl hgroups hbody.place⟩

/-! ## numbers -/

def digitsExpr : Expr := .plus true (.set .digit false)

def wholeExpr : Expr :=
  .alt (.set (.one '0') false)
    (.seq (.set (.union .none (.range '1' '9')) false) (.star true (.set .digit false)))

def fractionExpr : Expr := .opt true (.seq (.set (.one '.') false) digitsExpr)

def exponentExpr : Expr :=
  .opt true (.seq (.set (.union (.union .none (.one 'e')) (.one 'E')) false)
    (.seq (.opt true (.set (.union (.union .none (.one '+')) (.one '-')) false)) digitsExpr))

def numberExpr : Expr :=
  .seq (.opt true (.set (.one '-') false)) (.seq wholeExpr (.seq fractionExpr exponentExpr))

def numberPattern : Pattern := .starting JsonTag.numberPattern numberExpr

theorem anchored_number : Pattern.anchored JsonTag.numberPattern = .ok numberPattern := rfl

section
variable {s t : Spot} {w : List Char}

theorem passes_of_mem_digits (h : t ∈ digitsExpr.ends s) : ∃ w, Digits w ∧ s.Passes w t := by
  obtain ⟨w, hne, hw, hpasses⟩ := Expr.passes_of_mem_run h
  exact ⟨w, ⟨hne, hw⟩, hpasses⟩

theorem passes_of_mem_whole (h : t ∈ wholeExpr.ends s) : ∃ w, Whole w ∧ s.Passes w t := by
  rcases Expr.mem_ends_alt.mp h with h | h
  · obtain ⟨c, hc, hpasses⟩ := Expr.passes_of_mem_set h
    obtain rfl : c = '0' := by simpa [Expr.mem_one] using hc
    exact ⟨_, .zero, hpasses⟩
  · obtain ⟨u, hu, ht⟩ := Expr.mem_ends_seq.mp h
    obtain ⟨c, hc, hfirst⟩ := Expr.passes_of_mem_set hu
    obtain ⟨w, hw, hpasses⟩ := Expr.passes_of_mem_many ht
    have hc' : '1' ≤ c ∧ c ≤ '9' := by simpa [CharSet.mem] using hc
    exact ⟨_, .nonzero hc'.1 hc'.2 hw, hfirst.trans hpasses⟩

theorem passes_of_mem_fraction (h : t ∈ fractionExpr.ends s) :
    ∃ w, Fraction w ∧ s.Passes w t := by
  rcases Expr.mem_ends_opt.mp h with h | rfl
  · obtain ⟨u, hu, ht⟩ := Expr.mem_ends_seq.mp h
    obtain ⟨c, hc, hpoint⟩ := Expr.passes_of_mem_set hu
    obtain ⟨w, hw, hpasses⟩ := passes_of_mem_digits ht
    obtain rfl : c = '.' := by simpa [Expr.mem_one] using hc
    exact ⟨_, .some hw, hpoint.trans hpasses⟩
  · exact ⟨[], .none, .refl t⟩

theorem passes_of_mem_exponent (h : t ∈ exponentExpr.ends s) :
    ∃ w, Exponent w ∧ s.Passes w t := by
  rcases Expr.mem_ends_opt.mp h with h | rfl
  · obtain ⟨u, hu, hrest⟩ := Expr.mem_ends_seq.mp h
    obtain ⟨v, hv, ht⟩ := Expr.mem_ends_seq.mp hrest
    obtain ⟨e, he, hletter⟩ := Expr.passes_of_mem_set hu
    obtain ⟨w, hw, hpasses⟩ := passes_of_mem_digits ht
    have he' : e = 'e' ∨ e = 'E' := by simpa [CharSet.mem, Expr.mem_one] using he
    rcases Expr.mem_ends_opt.mp hv with hv | rfl
    · obtain ⟨c, hc, hsign⟩ := Expr.passes_of_mem_set hv
      have hc' : c = '+' ∨ c = '-' := by simpa [CharSet.mem, Expr.mem_one] using hc
      have hsigned : Exponent (e :: ([c] ++ w)) := .some he' (by simp [hc']) hw
      exact ⟨_, hsigned, hletter.trans (hsign.trans hpasses)⟩
    · have hunsigned : Exponent (e :: ([] ++ w)) := .some he' (.inl rfl) hw
      exact ⟨_, hunsigned, hletter.trans hpasses⟩
  · exact ⟨[], .none, .refl t⟩

theorem passes_of_mem_number (h : t ∈ numberExpr.ends s) : ∃ w, Numeral w ∧ s.Passes w t := by
  obtain ⟨u, hu, hrest⟩ := Expr.mem_ends_seq.mp h
  obtain ⟨v, hv, hrest'⟩ := Expr.mem_ends_seq.mp hrest
  obtain ⟨x, hx, ht⟩ := Expr.mem_ends_seq.mp hrest'
  obtain ⟨whole, hwhole, hv'⟩ := passes_of_mem_whole hv
  obtain ⟨fraction, hfraction, hx'⟩ := passes_of_mem_fraction hx
  obtain ⟨exponent, hexponent, ht'⟩ := passes_of_mem_exponent ht
  have hpasses := hv'.trans (hx'.trans ht')
  rcases Expr.mem_ends_opt.mp hu with hu | rfl
  · obtain ⟨c, hc, hsign⟩ := Expr.passes_of_mem_set hu
    obtain rfl : c = '-' := by simpa [Expr.mem_one] using hc
    exact ⟨_, .mk (.inr rfl) hwhole hfraction hexponent, hsign.trans hpasses⟩
  · exact ⟨_, .mk (.inl rfl) hwhole hfraction hexponent, hpasses⟩

/-- the text does not go on with what could be part of a number -/
structure Final (rest : List Char) : Prop where
  digit : rest.head?.any isDecimalDigit = false
  point : rest.head? ≠ some '.'
  exponent : ∀ e, e = 'e' ∨ e = 'E' → rest.head? ≠ some e

theorem leads_digits (hw : Digits w) (hs : s.Passes w t)
    (ht : t.place.rest.head?.any isDecimalDigit = false) : digitsExpr.Leads s t :=
  Expr.leads_run hw.1 hw.2 hs ht

theorem leads_whole (hw : Whole w) (hs : s.Passes w t)
    (ht : t.place.rest.head?.any isDecimalDigit = false) : wholeExpr.Leads s t := by
  cases hw with
  | zero => exact (Expr.leads_set (by simp [Expr.mem_one]) hs).alt_left
  | @nonzero c cs hge hle hcs =>
    obtain ⟨u, hu, hmore⟩ := Spot.Passes.split (v := [c]) hs
    have hzero : (Expr.set (.one '0') false).ends s = [] := by
      refine Expr.ends_set_eq_nil ?_
      have hne : c ≠ '0' := by
        rintro rfl
        exact absurd hge (by decide)
      simp [hu.rest, Expr.mem_one, hne]
    have hmem : CharSet.mem false (.union .none (.range '1' '9')) c = true := by
      simp [CharSet.mem, hge, hle]
    have hmany : (Expr.star true (.set .digit false)).Leads u t := Expr.leads_many hcs hmore ht
    exact ((Expr.leads_set hmem hu).seq hmany).alt_right hzero

theorem leads_fraction (hw : Fraction w) (hs : s.Passes w t)
    (ht : t.place.rest.head?.any isDecimalDigit = false) (hpoint : t.place.rest.head? ≠ some '.') :
    fractionExpr.Leads s t := by
  cases hw with
  | none =>
    obtain rfl : t = s := hs.eq
    refine Expr.leads_opt_of_nil (Expr.ends_seq_eq_nil (Expr.ends_set_eq_nil ?_))
    cases hhead : t.place.rest.head? with
    | none => rfl
    | some c =>
      have hne : c ≠ '.' := fun hc => hpoint (by rw [hhead, hc])
      simp [Expr.mem_one, hne]
  | @some ds hds =>
    obtain ⟨u, hu, hmore⟩ := Spot.Passes.split (v := ['.']) hs
    have hmem : CharSet.mem false (.one '.') '.' = true := by simp [Expr.mem_one]
    exact ((Expr.leads_set hmem hu).seq (leads_digits hds hmore ht)).opt

theorem leads_exponent (hw : Exponent w) (hs : s.Passes w t) (ht : Final t.place.rest) :
    exponentExpr.Leads s t := by
  cases hw with
  | none =>
    obtain rfl : t = s := hs.eq
    refine Expr.leads_opt_of_nil (Expr.ends_seq_eq_nil (Expr.ends_set_eq_nil ?_))
    cases hhead : t.place.rest.head? with
    | none => rfl
    | some c =>
      have hne : ¬ (c = 'e' ∨ c = 'E') := fun hc => ht.exponent c hc hhead
      simpa [CharSet.mem, Expr.mem_one, not_or] using hne
  | @some e sign ds he hsign hds =>
    obtain ⟨u, hu, hmore⟩ := Spot.Passes.split (v := [e]) hs
    obtain ⟨v, hv, hdigits⟩ := hmore.split
    have hletter : CharSet.mem false (.union (.union .none (.one 'e')) (.one 'E')) e = true := by
      simpa [CharSet.mem, Expr.mem_one] using he
    have hopt : (Expr.opt true
        (.set (.union (.union .none (.one '+')) (.one '-')) false)).Leads u v := by
      rcases hsign with rfl | rfl | rfl
      · obtain rfl : v = u := hv.eq
        refine Expr.leads_opt_of_nil (Expr.ends_set_eq_nil ?_)
        -- a sign is no digit, so there is none where the digits begin
        obtain ⟨d, ds, rfl⟩ := List.exists_cons_of_ne_nil hds.1
        have hd : isDecimalDigit d = true := hds.2 d List.mem_cons_self
        have hplus : d ≠ '+' := by rintro rfl; exact absurd hd (by decide)
        have hminus : d ≠ '-' := by rintro rfl; exact absurd hd (by decide)
        simp [hdigits.rest, CharSet.mem, Expr.mem_one, hplus, hminus]
      · exact (Expr.leads_set (by simp [CharSet.mem, Expr.mem_one]) hv).opt
      · exact (Expr.leads_set (by simp [CharSet.mem, Expr.mem_one]) hv).opt
    have hrest := hopt.seq (leads_digits hds hdigits ht.digit)
    exact ((Expr.leads_set hletter hu).seq hrest).opt

theorem head_exponent (h : Exponent w) {rest : List Char} (hrest : Final rest) :
    (w ++ rest).head?.any isDecimalDigit = false ∧ (w ++ rest).head? ≠ some '.' := by
  cases h with
  | none => exact ⟨hrest.digit, hrest.point⟩
  | some he _ _ =>
    have hdigit : isDecimalDigit 'e' = false ∧ isDecimalDigit 'E' = false := by decide
    rcases he with rfl | rfl
    · exact ⟨hdigit.1, by simp⟩
    · exact ⟨hdigit.2, by simp⟩

theorem head_fraction (h : Fraction w) {rest : List Char}
    (hrest : rest.head?.any isDecimalDigit = false) :
    (w ++ rest).head?.any isDecimalDigit = false := by
  cases h with
  | none => exact hrest
  | some _ =>
    have hdigit : isDecimalDigit '.' = false := by decide
    exact hdigit

theorem leads_number (hw : Numeral w) (hs : s.Passes w t) (ht : Final t.place.rest) :
    numberExpr.Leads s t := by
  cases hw with
  | @mk sign whole fraction exponent hsign hwhole hfraction hexponent =>
    obtain ⟨u, hu, hrest⟩ := hs.split
    obtain ⟨v, hv, hrest'⟩ := hrest.split
    obtain ⟨x, hx, hx'⟩ := hrest'.split
    -- where each part ends, the next one begins
    have hxhead := head_exponent hexponent ht
    rw [← hx'.rest] at hxhead
    have hvhead := head_fraction hfraction hxhead.1
    rw [← hx.rest] at hvhead
    have hopt : (Expr.opt true (.set (.one '-') false)).Leads s u := by
      rcases hsign with rfl | rfl
      · obtain rfl : u = s := hu.eq
        refine Expr.leads_opt_of_nil (Expr.ends_set_eq_nil ?_)
        rw [hv.rest]
        cases hwhole with
        | zero => simp [Expr.mem_one]
        | @nonzero c cs hge _ _ =>
          have hne : c ≠ '-' := by rintro rfl; exact absurd hge (by decide)
          simp [Expr.mem_one, hne]
      · exact (Expr.leads_set (by simp [Expr.mem_one]) hu).opt
    exact hopt.seq ((leads_whole hwhole hv hvhead).seq
      ((leads_fraction hfraction hx hxhead.1 hxhead.2).seq (leads_exponent hexponent hx' ht)))

end

theorem Numeral.head {w : List Char} (h : Numeral w) :
    ∃ c v, w = c :: v ∧ (c = '-' ∨ '0' ≤ c ∧ c ≤ '9') := by
  cases h with
  | @mk sign whole fraction exponent hsign hwhole hfraction hexponent =>
    rcases hsign with rfl | rfl
    · cases hwhole with
      | zero => exact ⟨_, _, rfl, by decide⟩
      | nonzero hge hle _ => exact ⟨_, _, rfl, .inr ⟨Char.le_trans (by decide) hge, hle⟩⟩
    · exact ⟨_, _, rfl, .inl rfl⟩

theorem not_whiteSpace_of_numeral {c : Char} (h : c = '-' ∨ '0' ≤ c ∧ c ≤ '9') :
    isWhiteSpace c = false := by
  rcases h with rfl | ⟨hge, hle⟩
  · decide
  · refine not_whiteSpace_of_digit ?_
    have hlo : 48 ≤ c.toNat := hge
    have hhi : c.toNat ≤ 57 := hle
    simp only [isDecimalDigit, decimalDigits, CodeRanges.contains]
    rw [if_neg (by omega)]
    simp [hhi]

theorem tokens_number : numberPattern.Tokens fun w text => Numeral w ∧ text = String.ofList w where
  sound := by
    intro p q m h
    obtain ⟨t, ht, rfl, rfl⟩ := Pattern.mem_ends_of_matchAt? h
    obtain ⟨w, hw, hpasses⟩ := passes_of_mem_number ht
    exact ⟨w, ⟨hw, Pattern.captured_found rfl hpasses.place⟩, hpasses.place⟩
  visible := by
    rintro w text ⟨hw, -⟩
    obtain ⟨c, v, rfl, hc⟩ := hw.head
    exact ⟨c, v, rfl, not_whiteSpace_of_numeral hc⟩

theorem Stops.final (h : Stops q) : Final q.rest where
  digit := h.not_digit
  point := h.not_char (by decide) (by decide)
  exponent := by
    rintro e (rfl | rfl)
    · exact h.not_char (by decide) (by decide)
    · exact h.not_char (by decide) (by decide)

theorem Numeral.look {w : List Char} (h : Numeral w) (hp : p.Takes w q) (hq : Stops q) :
    ∃ m, lookAlong? [.blank] numberPattern p.rest p = some (m, q) ∧
      m.captured = String.ofList w := by
  refine tokens_number.look_of_takes ⟨_, h, rfl⟩ hp fun p hp => ?_
  obtain ⟨t, ht, rfl⟩ := Spot.passes_start hp
  have hleads := leads_number h ht hq.final
  exact ⟨_, Pattern.matchAt?_of_leads _ hleads, Pattern.captured_found rfl ht.place⟩

end Json

end Packrat
