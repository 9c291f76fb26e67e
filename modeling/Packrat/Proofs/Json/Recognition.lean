import Packrat.Proofs.Json.Rules
import Packrat.Proofs.Verdicts

/-!
# Which texts are JSON documents

* `Json.Settled`          a rule comes to a result at a place, and what it finds is a phrase;
* `Json.settled`          values and properties do so at every place;
* `Json.Phrase.found`     a phrase that cannot go on is found, and with the same tree;
* `Json.value_recognized`   parsing a text always ends, and gives the trees that the grammar derives
                          for it.
-/

namespace Packrat

namespace Json

open JsonTag (grammar)

theorem Spaced.takes {token text : List Char} {p q : Place} (h : Spaced token text)
    (hp : p.Passes text q) : p.Takes token q := by
  obtain ⟨blank, hblank, rfl⟩ := h
  exact ⟨blank, hblank, hp⟩

theorem exists_spaced {token : List Char} {p q : Place} (h : p.Takes token q) :
    ∃ text, Spaced token text ∧ p.Passes text q := by
  obtain ⟨blank, hblank, hp⟩ := h
  exact ⟨_, ⟨blank, hblank, rfl⟩, hp⟩

/-! ## what is found is a phrase -/

/-- the rule comes to a result at `p`, and what it finds is derived by `P` -/
def Settled (name : String) (P : List Char → Tree JsonTag → Prop) (p : Place) : Prop :=
  grammar.Misses [.blank] name p ∨
    ∃ t q text, grammar.Finds [.blank] name p (.kept t) q ∧ P text t ∧ p.Passes text q

section
variable {p : Place} {c : Container}

theorem settled_string (p : Place) : Settled "string" Quotation p := by
  cases hlook : lookAlong? [.blank] stringPattern p.rest p with
  | none => exact .inl (misses_string hlook)
  | some found =>
    obtain ⟨m, q⟩ := found
    obtain ⟨w, ⟨body, hbody, rfl, htext⟩, htakes⟩ := tokens_string.takes_of_look hlook
    obtain ⟨text, hspaced, hpasses⟩ := exists_spaced htakes
    have hfinds := finds_string hlook
    rw [htext] at hfinds
    exact .inr ⟨_, q, text, hfinds, .mk hbody hspaced, hpasses⟩

theorem settled_number (p : Place) : Settled "number" (Phrase .value) p := by
  cases hlook : lookAlong? [.blank] numberPattern p.rest p with
  | none => exact .inl (misses_number hlook)
  | some found =>
    obtain ⟨m, q⟩ := found
    obtain ⟨w, ⟨hw, htext⟩, htakes⟩ := tokens_number.takes_of_look hlook
    obtain ⟨text, hspaced, hpasses⟩ := exists_spaced htakes
    have hfinds := finds_number hlook
    rw [htext] at hfinds
    exact .inr ⟨_, q, text, hfinds, .number hw hspaced, hpasses⟩

theorem settled_literal (p : Place) : Settled "literal" (Phrase .value) p := by
  by_cases hall : ∀ x, lookAlong? [.blank] (wordPattern x) p.rest p = none
  · exact .inl (misses_literal hall)
  · obtain ⟨x, hx⟩ := not_forall.mp hall
    obtain ⟨⟨m, q⟩, hlook⟩ := Option.ne_none_iff_exists'.mp hx
    obtain ⟨w, rfl, htakes⟩ := (tokens_word x).takes_of_look hlook
    obtain ⟨text, hspaced, hpasses⟩ := exists_spaced htakes
    exact .inr ⟨_, q, text, finds_word hlook, .word x hspaced, hpasses⟩

/-- items are read as long as a comma and an item follow -/
theorem exists_follows
    (h : ∀ q : Place, q.rest.length < p.rest.length → Settled c.item.name (Phrase c.item) q) :
    ∃ ts q text, grammar.Follows [.blank] c.moreName p ts q ∧ Tails c.item text ts ∧ p.Passes text q := by
  induction hn : p.rest.length using Nat.strongRecOn generalizing p with
  | _ n ih =>
    subst hn
    have hjoins := joins_more c
    -- a comma without an item is left where it is
    by_cases hnext : p.next? = some ','
    · obtain ⟨q, hq⟩ := Place.exists_takes hnext
      have hlt := hq.length_lt (List.cons_ne_nil _ _)
      rcases h q hlt with hmiss | ⟨t, q', text, hfound, hphrase, hpasses⟩
      · exact ⟨[], p, [], .stop (hjoins.misses_of_item hq hmiss), .nil, .refl p⟩
      · have hlt' : q'.rest.length < p.rest.length := Nat.lt_of_le_of_lt hpasses.length_le hlt
        have hoffset : p.offset < q'.offset :=
          Nat.lt_of_lt_of_le hq.offset_lt (Place.offset_le hpasses.le)
        obtain ⟨ts, q'', others, hfollows, htails, hothers⟩ :=
          ih _ hlt' (fun r hr => h r (Nat.lt_trans hr hlt')) rfl
        obtain ⟨comma, hcomma, hp⟩ := exists_spaced hq
        exact ⟨t :: ts, q'', _, hjoins.follows hq hfound hphrase.spliced hoffset hfollows,
          .cons hcomma hphrase htails, hp.trans (hpasses.trans hothers)⟩
    · exact ⟨[], p, [], .stop (hjoins.misses_of_symbol hnext), .nil, .refl p⟩

theorem settled_container
    (h : ∀ q : Place, q.rest.length < p.rest.length → Settled c.item.name (Phrase c.item) q) :
    Settled c.name (Phrase .value) p := by
  by_cases hopen : p.next? = some c.opening
  · obtain ⟨q, hq⟩ := Place.exists_takes hopen
    obtain ⟨opening, hopening, hp⟩ := exists_spaced hq
    have hlt := hq.length_lt (List.cons_ne_nil _ _)
    rcases h q hlt with hmiss | ⟨t, q', text, hfound, hphrase, hpasses⟩
    · have hno := misses_items hmiss
      by_cases hclose : q.next? = some c.closing
      · obtain ⟨r, hr⟩ := Place.exists_takes hclose
        obtain ⟨closing, hclosing, hlast⟩ := exists_spaced hr
        exact .inr ⟨_, r, _, finds_empty hq hno hr, .empty c hopening hclosing, hp.trans hlast⟩
      · exact .inl (misses_container (breaks_container_of_empty hq hno hclose))
    · have hle := hpasses.length_le
      obtain ⟨ts, q'', others, hfollows, htails, hothers⟩ :=
        exists_follows fun r hr => h r (Nat.lt_trans (Nat.lt_of_lt_of_le hr hle) hlt)
      have hitems := finds_items hfound hphrase.spliced hfollows
      by_cases hclose : q''.next? = some c.closing
      · obtain ⟨r, hr⟩ := Place.exists_takes hclose
        obtain ⟨closing, hclosing, hlast⟩ := exists_spaced hr
        exact .inr ⟨_, r, _, finds_filled hq hitems hr,
          .filled c hopening hphrase htails hclosing,
          hp.trans (hpasses.trans (hothers.trans hlast))⟩
      · exact .inl (misses_container (breaks_container_of_filled hq hitems hclose))
  · exact .inl (misses_container (breaks_container_of_opening hopen))

theorem settled_property
    (h : ∀ q : Place, q.rest.length < p.rest.length → Settled "value" (Phrase .value) q) :
    Settled "property" (Phrase .property) p := by
  rcases settled_string p with hmiss | ⟨t, q, key, hkey, hquotation, hp⟩
  · exact .inl (misses_property hmiss.breaks)
  · by_cases hcolon : q.next? = some ':'
    · obtain ⟨q', hq'⟩ := Place.exists_takes hcolon
      obtain ⟨colon, hspaced, hq⟩ := exists_spaced hq'
      have hlt := hq'.length_lt (List.cons_ne_nil _ _)
      rcases h q' (Nat.lt_of_lt_of_le hlt hp.length_le) with
        hmiss | ⟨u, r, text, hvalue, hphrase, hr⟩
      · have hbreaks : grammar.Breaks [.blank] propertyClause.steps p :=
          hkey.breaks (Grammar.breaks_after_symbol isSymbol_colon hq' hmiss.breaks)
        exact .inl (misses_property hbreaks)
      · exact .inr ⟨_, r, _, finds_property hkey hquotation.spliced hq' hvalue hphrase.spliced,
          .property hquotation hspaced hphrase, hp.trans (hq.trans hr)⟩
    · have hbreaks : grammar.Breaks [.blank] propertyClause.steps p :=
        hkey.breaks (Grammar.breaks_symbol isSymbol_colon hcolon)
      exact .inl (misses_property hbreaks)

/-- the rules of values are tried in order, so the first of them that matches counts -/
theorem settled_value (h : ∀ name ∈ valueNames, Settled name (Phrase .value) p) :
    Settled "value" (Phrase .value) p := by
  have hnames : ∀ after before, valueNames = before ++ after →
      (∀ name ∈ before, grammar.Misses [.blank] name p) → Settled "value" (Phrase .value) p := by
    intro after
    induction after with
    | nil =>
      intro before hbefore hmisses
      rw [List.append_nil] at hbefore
      exact .inl (misses_value (hbefore ▸ hmisses))
    | cons name after ih =>
      intro before hbefore hmisses
      have hmem : name ∈ valueNames := by simp [hbefore]
      rcases h name hmem with hmiss | ⟨t, q, text, hfound, hphrase, hpasses⟩
      · refine ih (before ++ [name]) (by simp [hbefore]) fun other hother => ?_
        rcases List.mem_append.mp hother with hother | hother
        · exact hmisses other hother
        · exact List.mem_singleton.mp hother ▸ hmiss
      · exact .inr ⟨t, q, text, finds_value before hbefore hmisses hfound, hphrase, hpasses⟩
  exact hnames valueNames [] rfl fun _ hname => nomatch hname

/-- **Values and properties come to a result at every place, and what they find is a phrase.** -/
theorem settled (k : Kind) (p : Place) : Settled k.name (Phrase k) p := by
  induction hn : p.rest.length using Nat.strongRecOn generalizing k p with
  | _ n ih =>
    subst hn
    have hsmaller : ∀ (k : Kind) (q : Place), q.rest.length < p.rest.length →
        Settled k.name (Phrase k) q := fun k q hq => ih _ hq k q rfl
    cases k with
    | property => exact settled_property (hsmaller .value)
    | value =>
      refine settled_value ?_
      have hobject : Settled "object" (Phrase .value) p :=
        settled_container (c := .object) (hsmaller .property)
      have harray : Settled "array" (Phrase .value) p :=
        settled_container (c := .array) (hsmaller .value)
      have hstring : Settled "string" (Phrase .value) p := by
        rcases settled_string p with hmiss | ⟨t, q, text, hfound, hquotation, hpasses⟩
        · exact .inl hmiss
        · exact .inr ⟨t, q, text, hfound, .string hquotation, hpasses⟩
      simp only [valueNames, List.forall_mem_cons]
      exact ⟨hobject, harray, hstring, settled_number p, settled_literal p,
        fun _ hname => nomatch hname⟩

end

/-! ## a phrase is found -/

section
variable {c : Container} {k : Kind} {p q : Place} {text : List Char} {t : Tree JsonTag}
  {ts : List (Tree JsonTag)}

/-- what ends a container begins no phrase -/
theorem Phrase.next? (h : Phrase k text t) (hp : p.Passes text q) (c : Container) :
    p.next? ≠ some c.closing := by
  cases h with
  | string h =>
    cases h with
    | mk hbody htext =>
      rw [(htext.takes hp).next? (by decide)]
      cases c <;> decide
  | number hnumeral htext =>
    obtain ⟨d, v, rfl, hd⟩ := hnumeral.head
    rw [(htext.takes hp).next? (not_whiteSpace_of_numeral hd)]
    rintro ⟨⟩
    revert hd
    cases c <;> decide
  | word x htext =>
    rw [next?_of_word (htext.takes hp)]
    cases x <;> cases c <;> decide
  | empty c' hopening _ =>
    obtain ⟨r, hr, -⟩ := hp.split
    rw [(hopening.takes hr).next? c'.isSymbol_opening.visible]
    cases c' <;> cases c <;> decide
  | filled c' hopening _ _ _ =>
    obtain ⟨r, hr, -⟩ := hp.split
    rw [(hopening.takes hr).next? c'.isSymbol_opening.visible]
    cases c' <;> cases c <;> decide
  | property hkey _ _ =>
    obtain ⟨r, hr, -⟩ := hp.split
    cases hkey with
    | mk hbody htext =>
      rw [(htext.takes hr).next? (by decide)]
      cases c <;> decide

theorem misses_items_of_closing (h : p.Takes [c.closing] q) :
    grammar.Misses [.blank] c.itemsName p := by
  refine misses_items ?_
  rcases settled c.item p with hmiss | ⟨t, r, text, -, hphrase, hpasses⟩
  · exact hmiss
  · exact absurd (h.next? c.isSymbol_closing.visible) (hphrase.next? hpasses c)

theorem misses_container_of_next {d : Char} (h : p.next? = some d) (hd : d ≠ c.opening) :
    grammar.Misses [.blank] c.name p := by
  refine misses_container (breaks_container_of_opening ?_)
  rw [h]
  exact fun heq => hd (Option.some.inj heq)

theorem finds_value_of_container (hopen : p.next? = some c.opening)
    (h : grammar.Finds [.blank] c.name p (.kept t) q) :
    grammar.Finds [.blank] "value" p (.kept t) q := by
  cases c with
  | object => exact finds_value [] rfl (fun _ hname => nomatch hname) h
  | array =>
    refine finds_value ["object"] rfl (List.forall_mem_singleton.mpr ?_) h
    exact misses_container_of_next (c := .object) hopen (by decide)

theorem finds_quotation (h : Quotation text t) (hp : p.Passes text q) :
    ∃ u, t.bare = u.bare ∧ grammar.Finds [.blank] "string" p (.kept u) q ∧ p.next? = some '"' := by
  cases h with
  | mk hbody htext =>
    have htakes := htext.takes hp
    obtain ⟨m, hlook, hcaptured⟩ := hbody.look htakes
    have hfound := finds_string hlook
    rw [hcaptured] at hfound
    exact ⟨_, by rw [Tree.bare_leaf, Tree.bare_leaf], hfound, htakes.next? (by decide)⟩

/-- where a number or a word begins, no rule matches that is tried before -/
theorem misses_before {d : Char} (h : p.next? = some d) (hd : d ∉ ['\x7b', '[', '"']) :
    ∀ name ∈ ["object", "array", "string"], grammar.Misses [.blank] name p := by
  simp only [List.mem_cons, List.not_mem_nil, or_false, not_or] at hd
  obtain ⟨hobject, harray, hquote⟩ := hd
  have hstring : grammar.Misses [.blank] "string" p := by
    refine misses_string (tokens_string.look_eq_none ?_)
    rintro c v text ⟨body, -, hw, -⟩ hnext
    obtain ⟨rfl, -⟩ := List.cons.inj hw
    exact hquote (Option.some.inj (h.symm.trans hnext))
  simp only [List.forall_mem_cons]
  exact ⟨misses_container_of_next (c := .object) h hobject,
    misses_container_of_next (c := .array) h harray, hstring, fun _ hname => nomatch hname⟩

theorem finds_numeral {w : List Char} (hw : Numeral w) (hp : p.Takes w q) (hq : Stops q) :
    ∃ span, grammar.Finds [.blank] "value" p
      (.kept (.leaf (some .number) (String.ofList w) span)) q := by
  obtain ⟨m, hlook, hcaptured⟩ := hw.look hp hq
  obtain ⟨d, v, rfl, hd⟩ := hw.head
  have hnext := hp.next? (not_whiteSpace_of_numeral hd)
  have hother : d ∉ ['\x7b', '[', '"'] := by
    intro hmem
    simp only [List.mem_cons, List.not_mem_nil, or_false] at hmem
    rcases hmem with rfl | rfl | rfl <;> revert hd <;> decide
  have hfound := finds_number hlook
  rw [hcaptured] at hfound
  exact ⟨m.span, finds_value ["object", "array", "string"] rfl (misses_before hnext hother) hfound⟩

theorem finds_literal {x : Word} (hp : p.Takes x.text q) (hq : Stops q) :
    grammar.Finds [.blank] "value" p (.kept (.keyword x.tag)) q := by
  obtain ⟨m, hlook, -⟩ := x.look hp hq
  obtain ⟨d, hd, hother, hno⟩ : ∃ d, x.text.head? = some d ∧ d ∉ ['\x7b', '[', '"'] ∧
      ¬ (d = '-' ∨ '0' ≤ d ∧ d ≤ '9') := by
    cases x <;> exact ⟨_, rfl, by decide, by decide⟩
  have hnext : p.next? = some d := (next?_of_word hp).trans hd
  have hnumber : grammar.Misses [.blank] "number" p := by
    refine misses_number (tokens_number.look_eq_none ?_)
    rintro c v text ⟨hw, -⟩ hc
    obtain ⟨e, v', hv, he⟩ := hw.head
    obtain ⟨rfl, -⟩ := List.cons.inj hv
    exact hno (Option.some.inj (hnext.symm.trans hc) ▸ he)
  refine finds_value ["object", "array", "string", "number"] rfl ?_ (finds_word hlook)
  intro name hname
  have hsplit : name ∈ ["object", "array", "string"] ++ ["number"] := hname
  rcases List.mem_append.mp hsplit with hname | hname
  · exact misses_before hnext hother name hname
  · exact List.mem_singleton.mp hname ▸ hnumber

/-- an item is followed by a comma, or else by what follows the items -/
theorem Tails.stops (h : Tails k text ts) (hp : p.Passes text q) (hq : Stops q) : Stops p := by
  cases h with
  | nil =>
    obtain rfl := (Place.Passes.refl p).unique hp
    exact hq
  | cons hcomma _ _ =>
    obtain ⟨r, hr, -⟩ := hp.split
    exact stops_of_takes (hcomma.takes hr) (by decide) (by decide)

theorem Container.stops (h : p.Takes [c.closing] q) : Stops p :=
  stops_of_takes h c.isSymbol_closing.visible (by cases c <;> decide)

/-- what stands before a comma or the end of a container does not go on -/
theorem misses_more (h : p.Takes [c.closing] q) : grammar.Misses [.blank] c.moreName p := by
  refine (joins_more c).misses_of_symbol ?_
  rw [h.next? c.isSymbol_closing.visible]
  cases c <;> decide

end

mutual

/-- **A phrase is found where it stands, unless it could go on**, with the same tree up to spans. -/
theorem Phrase.found {k : Kind} {text : List Char} {t : Tree JsonTag} {p q : Place}
    (h : Phrase k text t) (hp : p.Passes text q) (hq : Stops q) :
    ∃ u, t.bare = u.bare ∧ grammar.Finds [.blank] k.name p (.kept u) q := by
  match h with
  | .string h =>
    obtain ⟨u, hu, hfound, hnext⟩ := finds_quotation h hp
    refine ⟨u, hu, finds_value ["object", "array"] rfl ?_ hfound⟩
    exact List.forall_mem_cons.mpr ⟨misses_container_of_next (c := .object) hnext (by decide),
      List.forall_mem_singleton.mpr (misses_container_of_next (c := .array) hnext (by decide))⟩
  | .number hnumeral htext =>
    obtain ⟨span, hfound⟩ := finds_numeral hnumeral (htext.takes hp) hq
    exact ⟨_, by rw [Tree.bare_leaf, Tree.bare_leaf], hfound⟩
  | .word x htext => exact ⟨_, rfl, finds_literal (htext.takes hp) hq⟩
  | .empty c hopening hclosing =>
    obtain ⟨r, hr, hlast⟩ := hp.split
    have hopen := hopening.takes hr
    have hclose := hclosing.takes hlast
    have hfound := finds_empty hopen (misses_items_of_closing hclose) hclose
    exact ⟨_, rfl, finds_value_of_container (hopen.next? c.isSymbol_opening.visible) hfound⟩
  | .filled c hopening h htails hclosing =>
    obtain ⟨r, hr, hrest⟩ := hp.split
    obtain ⟨r', hr', hrest'⟩ := hrest.split
    obtain ⟨r'', hr'', hlast⟩ := hrest'.split
    have hopen := hopening.takes hr
    have hclose := hclosing.takes hlast
    have hstops : Stops r'' := Container.stops hclose
    obtain ⟨u, hu, hfound⟩ := h.found hr' (htails.stops hr'' hstops)
    obtain ⟨us, hus, hfollows⟩ := htails.follows hr'' hstops (misses_more hclose)
    have hitems := finds_items hfound (h.congr hu).spliced hfollows
    refine ⟨_, ?_, finds_value_of_container (hopen.next? c.isSymbol_opening.visible)
      (finds_filled hopen hitems hclose)⟩
    rw [Tree.bare_branch, Tree.bare_branch, List.map_cons, List.map_cons, hu, hus]
  | .property hkey hcolon h =>
    obtain ⟨r, hr, hrest⟩ := hp.split
    obtain ⟨r', hr', hlast⟩ := hrest.split
    obtain ⟨v, hv, hfound, -⟩ := finds_quotation hkey hr
    obtain ⟨u, hu, hvalue⟩ := h.found hlast hq
    refine ⟨_, ?_, finds_property hfound (hkey.congr hv).spliced (hcolon.takes hr') hvalue
      (h.congr hu).spliced⟩
    simp only [Tree.bare_branch, List.map_cons, hv, hu]

theorem Tails.follows {c : Container} {text : List Char} {ts : List (Tree JsonTag)} {p q : Place}
    (h : Tails c.item text ts) (hp : p.Passes text q) (hq : Stops q)
    (hend : grammar.Misses [.blank] c.moreName q) :
    ∃ us, ts.map Tree.bare = us.map Tree.bare ∧ grammar.Follows [.blank] c.moreName p us q := by
  match h with
  | .nil =>
    obtain rfl := (Place.Passes.refl p).unique hp
    exact ⟨[], rfl, .stop hend⟩
  | .cons hcomma h htails =>
    obtain ⟨r, hr, hrest⟩ := hp.split
    obtain ⟨r', hr', hlast⟩ := hrest.split
    have htakes := hcomma.takes hr
    obtain ⟨u, hu, hfound⟩ := h.found hr' (htails.stops hlast hq)
    obtain ⟨us, hus, hfollows⟩ := htails.follows hlast hq hend
    have hoffset : p.offset < r'.offset :=
      Nat.lt_of_lt_of_le htakes.offset_lt (Place.offset_le hr'.le)
    refine ⟨u :: us, ?_, (joins_more c).follows htakes hfound (h.congr hu).spliced hoffset hfollows⟩
    rw [List.map_cons, List.map_cons, hu, hus]

end

/-! ## texts -/

theorem ruleIndex?_value : grammar.compile.ruleIndex? "value" = some 0 := by decide +kernel

section
variable {s : String} {t : Tree JsonTag}

/-- **A text that is parsed is a document with that tree.** -/
theorem document_of_parse? {limit : Nat}
    (h : grammar.compile.parse? limit "value" s {} = some (.ok t)) : Document s.toList t := by
  rcases settled .value (Place.first s.toList) with hmiss | ⟨u, q, text, hfound, hphrase, hpasses⟩
  · obtain ⟨e, he⟩ := Grammar.parse?_of_misses ruleIndex?_value rfl hmiss
    cases (he _).mp ⟨limit, h⟩
  · have houtcome := (Grammar.parse?_of_finds ruleIndex?_value rfl hfound _).mp ⟨limit, h⟩
    split at houtcome
    · next hend =>
      cases houtcome
      exact ⟨text, q.rest, hpasses.rest, skipAll_blank_eq_nil.mp hend, hphrase⟩
    · cases houtcome

/-- **A document is parsed, and with the same tree up to spans.** -/
theorem parse?_of_document (h : Document s.toList t) :
    ∃ limit u, grammar.compile.parse? limit "value" s {} = some (.ok u) ∧ t.bare = u.bare := by
  obtain ⟨body, blank, hs, hblank, hphrase⟩ := h
  obtain ⟨q, hq, rfl⟩ : ∃ q, (Place.first s.toList).Passes body q ∧ q.rest = blank :=
    Place.exists_passes hs
  have hstops : Stops q := by
    intro c hc
    rw [Place.next?_eq_none.mpr hblank] at hc
    cases hc
  obtain ⟨u, hu, hfound⟩ := hphrase.found hq hstops
  have hend := skipAll_blank_eq_nil.mpr hblank
  obtain ⟨limit, hparse⟩ :=
    (Grammar.parse?_of_finds ruleIndex?_value rfl hfound (.ok u)).mpr (if_pos hend).symm
  exact ⟨limit, u, hparse, hu⟩

end

/-- **Parsing a text as a value gives the tree of its derivation, if the text has one.**  Parsing
always ends, with one outcome whatever the limit, and there is a tree exactly for the texts that are
JSON documents: that of the derivation, up to spans. -/
theorem value_recognized (s : String) :
    (∃ outcome, ∀ other, (∃ limit, grammar.compile.parse? limit "value" s {} = some other) ↔
      other = outcome) ∧
    ∀ t, (∃ limit u, grammar.compile.parse? limit "value" s {} = some (.ok u) ∧ u.same t = true) ↔
      Document s.toList t := by
  constructor
  · rcases settled .value (Place.first s.toList) with hmiss | ⟨t, q, text, hfound, -, -⟩
    · obtain ⟨e, he⟩ := Grammar.parse?_of_misses ruleIndex?_value rfl hmiss
      exact ⟨.error e, he⟩
    · exact ⟨_, Grammar.parse?_of_finds ruleIndex?_value rfl hfound⟩
  · intro t
    constructor
    · rintro ⟨limit, u, hparse, hsame⟩
      exact (document_of_parse? hparse).congr ((Tree.same_iff u t).mp hsame)
    · intro h
      obtain ⟨limit, u, hparse, hu⟩ := parse?_of_document h
      exact ⟨limit, u, hparse, (Tree.same_iff u t).mpr hu.symm⟩

/-- an array with an object, an empty array and a number: three children of one node -/
theorem value_recognized_of_array :
    ∃ t, Document " [\x7b\"k\\\"\" : null\x7d, [ ],-1.5e+3] ".toList t ∧ t.tag = some .array ∧
      t.children.length = 3 := by
  have hparse : ((grammar.compile.parse? 1000 "value" " [\x7b\"k\\\"\" : null\x7d, [ ],-1.5e+3] "
      {}).bind Except.toOption).map (fun t => (t.tag, t.children.length)) =
      some (some .array, 3) := by
    decide +kernel
  obtain ⟨t, ht, hview⟩ := Option.map_eq_some_iff.mp hparse
  obtain ⟨outcome, houtcome, hok⟩ := Option.bind_eq_some_iff.mp ht
  obtain ⟨htag, hlength⟩ := Prod.mk.inj hview
  cases outcome with
  | error e => cases hok
  | ok u =>
    cases hok
    have hsame : t.same t = true := (Tree.same_iff t t).mpr rfl
    have hdocument := ((value_recognized _).2 t).mp ⟨1000, t, houtcome, hsame⟩
    exact ⟨t, hdocument, htag, hlength⟩

end Json

end Packrat
