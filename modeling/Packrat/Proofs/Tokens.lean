import Packrat.Proofs.Lexing

/-!
# Tokens by their expressions

The ends of an expression are put together from those of its parts.  A token is recognized in two
steps: each end is reached over a word of the token, and a word that cannot go on leads to the first
end.

* `Spot.Passes w`     from one spot to another, over the characters of `w` and without a new group;
* `Expr.mem_ends_seq`, `Expr.passes_of_mem_run` and others   what every end is reached over;
* `Expr.Leads`        the first end, and the laws by which it is found;
* `lookAlong?_eq`     a pattern that never matches ignorable text is looked for after all of it;
* `Pattern.Tokens`    the words that a pattern matches, each with the text that is kept of it.
-/

namespace Packrat

/-! ## from spot to spot -/

namespace Spot

/-- from `s` over the characters of `w` to `t`, where no group is closed on the way -/
structure Passes (s : Spot) (w : List Char) (t : Spot) : Prop where
  rest : s.place.rest = w ++ t.place.rest
  eq : t = s.after w

variable {s t u : Spot} {v w : List Char}

theorem passes_after_of_prefix (h : w <+: s.place.rest) : s.Passes w (s.after w) :=
  ⟨(passes_after h).rest, rfl⟩

theorem Passes.refl (s : Spot) : s.Passes [] s := ⟨rfl, rfl⟩

theorem Passes.trans (h : s.Passes v t) (h' : t.Passes w u) : s.Passes (v ++ w) u := by
  refine ⟨?_, ?_⟩
  · rw [h.rest, h'.rest, List.append_assoc]
  · rw [h'.eq, h.eq, after_append]

theorem Passes.place (h : s.Passes w t) : s.place.Passes w t.place := by
  have hprefix : w <+: s.place.rest := ⟨t.place.rest, h.rest.symm⟩
  rw [h.eq]
  exact passes_after hprefix

theorem Passes.split (h : s.Passes (v ++ w) u) : ∃ t, s.Passes v t ∧ t.Passes w u := by
  have hrest : s.place.rest = v ++ (w ++ u.place.rest) := by rw [h.rest, List.append_assoc]
  have hv : s.Passes v (s.after v) := passes_after_of_prefix ⟨_, hrest.symm⟩
  have hafter : (s.after v).place.rest = w ++ u.place.rest :=
    List.append_cancel_left (hv.rest.symm.trans hrest)
  exact ⟨_, hv, hafter, by rw [h.eq, after_append]⟩

theorem exists_passes {rest : List Char} (h : s.place.rest = w ++ rest) :
    ∃ t, s.Passes w t ∧ t.place.rest = rest := by
  have hw : s.Passes w (s.after w) := passes_after_of_prefix ⟨rest, h.symm⟩
  exact ⟨_, hw, List.append_cancel_left (hw.rest.symm.trans h)⟩

/-- the spot at the end of a stretch that begins at a place -/
theorem passes_start {p q : Place} (h : p.Passes w q) :
    ∃ t, (start p).Passes w t ∧ t.place = q := by
  obtain ⟨t, ht, -⟩ := exists_passes (s := start p) h.rest
  exact ⟨t, ht, ht.place.unique h⟩

end Spot

namespace Expr
variable {e f : Expr} {cs : CharSet} {anyCase : Bool} {s t u : Spot} {w : List Char} {c : Char}

/-! ## every end -/

theorem mem_ends_seq : t ∈ (Expr.seq e f).ends s ↔ ∃ u ∈ e.ends s, t ∈ f.ends u := by
  rw [ends_seq, List.mem_flatMap]

theorem mem_ends_alt : t ∈ (Expr.alt e f).ends s ↔ t ∈ e.ends s ∨ t ∈ f.ends s := by
  rw [ends_alt, List.mem_append]

theorem mem_ends_opt : t ∈ (Expr.opt true e).ends s ↔ t ∈ e.ends s ∨ t = s := by
  rw [ends_opt, mem_prefer, or_comm]

theorem mem_ends_group {index : Nat} :
    t ∈ (Expr.group index e).ends s ↔ ∃ u ∈ e.ends s, u.close index s.place = t := by
  rw [ends_group, List.mem_map]

theorem passes_of_mem_set (h : t ∈ (Expr.set cs anyCase).ends s) :
    ∃ c, cs.mem anyCase c = true ∧ s.Passes [c] t := by
  obtain ⟨c, hhead, hc, rfl⟩ := mem_ends_set.mp h
  obtain ⟨rest, hrest⟩ := List.head?_eq_some_iff.mp hhead
  exact ⟨c, hc, Spot.passes_after_of_prefix ⟨rest, hrest.symm⟩⟩

section
variable {P : List Char → Prop}

/-- what holds of nothing and is kept by a round before it holds of what all rounds pass -/
theorem passes_of_mem_rounds (hnil : P [])
    (hround : ∀ s t, t ∈ e.ends s → ∃ w, s.Passes w t ∧ ∀ v, P v → P (w ++ v)) (left : List Char)
    (h : t ∈ roundsEnds true e.ends left s) : ∃ w, P w ∧ s.Passes w t := by
  induction left generalizing s with
  | nil =>
    obtain rfl : t = s := List.mem_singleton.mp h
    exact ⟨[], hnil, .refl t⟩
  | cons c left ih =>
    rcases mem_prefer.mp h with rfl | h
    · exact ⟨[], hnil, .refl t⟩
    · obtain ⟨u, hu, ht⟩ := List.mem_flatMap.mp h
      obtain ⟨w, hw, hkeeps⟩ := hround s u hu
      obtain ⟨v, hv, hpasses⟩ := ih ht
      exact ⟨w ++ v, hkeeps v hv, hw.trans hpasses⟩

theorem Firm.passes_of_mem_plus (he : e.Firm) (hnil : P [])
    (hround : ∀ s t, t ∈ e.ends s → ∃ w, s.Passes w t ∧ ∀ v, P v → P (w ++ v))
    (h : t ∈ (Expr.plus true e).ends s) : ∃ u ∈ e.ends s, ∃ w, P w ∧ u.Passes w t := by
  rw [he.ends_plus] at h
  obtain ⟨u, hu, ht⟩ := List.mem_flatMap.mp h
  exact ⟨u, hu, passes_of_mem_rounds hnil hround _ ht⟩

theorem Firm.passes_of_mem_star (he : e.Firm) (hnil : P [])
    (hround : ∀ s t, t ∈ e.ends s → ∃ w, s.Passes w t ∧ ∀ v, P v → P (w ++ v))
    (h : t ∈ (Expr.star true e).ends s) : ∃ w, P w ∧ s.Passes w t := by
  rw [he.ends_star] at h
  exact passes_of_mem_rounds hnil hround _ h

end

theorem passes_of_set_round (s t : Spot) (h : t ∈ (Expr.set cs anyCase).ends s) :
    ∃ w, s.Passes w t ∧
      ∀ v, (∀ c ∈ v, cs.mem anyCase c = true) → ∀ c ∈ w ++ v, cs.mem anyCase c = true := by
  obtain ⟨c, hc, hpasses⟩ := passes_of_mem_set h
  exact ⟨[c], hpasses, fun v hv => List.forall_mem_cons.mpr ⟨hc, hv⟩⟩

theorem passes_of_mem_many (h : t ∈ (Expr.star true (.set cs anyCase)).ends s) :
    ∃ w, (∀ c ∈ w, cs.mem anyCase c = true) ∧ s.Passes w t :=
  (firm_set cs anyCase).passes_of_mem_star (fun _ hc => nomatch hc) passes_of_set_round h

theorem passes_of_mem_run (h : t ∈ (Expr.plus true (.set cs anyCase)).ends s) :
    ∃ w, w ≠ [] ∧ (∀ c ∈ w, cs.mem anyCase c = true) ∧ s.Passes w t := by
  obtain ⟨u, hu, w, hw, hpasses⟩ :=
    (firm_set cs anyCase).passes_of_mem_plus (fun _ hc => nomatch hc) passes_of_set_round h
  obtain ⟨c, hc, hu'⟩ := passes_of_mem_set hu
  exact ⟨c :: w, List.cons_ne_nil _ _, List.forall_mem_cons.mpr ⟨hc, hw⟩, hu'.trans hpasses⟩

theorem passes_of_mem_word {ds : List Char} (h : t ∈ (word ds e).ends s) :
    ∃ u, s.Passes ds u ∧ t ∈ e.ends u := by
  rw [ends_word] at h
  split at h
  · next hprefix => exact ⟨_, Spot.passes_after_of_prefix hprefix, h⟩
  · cases h

/-! ## no end at all -/

theorem ends_seq_eq_nil (h : e.ends s = []) : (Expr.seq e f).ends s = [] := by
  rw [ends_seq, h]
  rfl

theorem ends_alt_eq_nil (he : e.ends s = []) (hf : f.ends s = []) : (Expr.alt e f).ends s = [] := by
  rw [ends_alt, he, hf]
  rfl

/-- there is a match only where a character with `f` follows -/
def Begins (f : Char → Bool) (e : Expr) : Prop :=
  ∀ s, s.place.rest.head?.any f = false → e.ends s = []

section
variable {f : Char → Bool} {e g : Expr}

theorem begins_set (h : ∀ c, cs.mem anyCase c = true → f c = true) :
    (Expr.set cs anyCase).Begins f := by
  intro s hs
  refine ends_set_eq_nil ?_
  cases hhead : s.place.rest.head? with
  | none => rfl
  | some c =>
    have hc : f c = false := by simpa [hhead] using hs
    cases hmem : cs.mem anyCase c with
    | false => exact hmem
    | true =>
      rw [h c hmem] at hc
      cases hc

theorem Begins.seq (h : e.Begins f) : (Expr.seq e g).Begins f :=
  fun s hs => ends_seq_eq_nil (h s hs)

theorem Begins.plus (h : e.Begins f) : (Expr.plus true e).Begins f :=
  fun s hs => ends_plus_eq_nil true (h s hs)

theorem Begins.opt_seq (he : e.Begins f) (hg : g.Begins f) :
    (Expr.seq (.opt true e) g).Begins f := by
  intro s hs
  simp [ends_seq, ends_opt, he s hs, hg s hs]

theorem begins_word {c : Char} (ds : List Char) (hc : f c = true) :
    (word (c :: ds) e).Begins f := by
  have hset : (Expr.set (.one c) false).Begins f := by
    refine begins_set fun d hd => ?_
    rw [mem_one, beq_iff_eq] at hd
    rw [hd]
    exact hc
  exact hset.seq

theorem Begins.mono {f' : Char → Bool} (h : e.Begins f) (hf : ∀ c, f c = true → f' c = true) :
    e.Begins f' := by
  intro s hs
  refine h s ?_
  cases hhead : s.place.rest.head? with
  | none => rfl
  | some c =>
    have hc : f' c = false := by simpa [hhead] using hs
    cases hfc : f c with
    | false => exact hfc
    | true =>
      rw [hf c hfc] at hc
      cases hc

end

/-! ## the first end -/

/-- the preferred match from `s` ends at `t` -/
def Leads (e : Expr) (s t : Spot) : Prop := (e.ends s).head? = some t

theorem Leads.exists_ends (h : e.Leads s t) : ∃ more, e.ends s = t :: more := by
  obtain ⟨more, hmore⟩ := List.head?_eq_some_iff.mp h
  exact ⟨more, hmore⟩

theorem Leads.seq (he : e.Leads s t) (hf : f.Leads t u) : (Expr.seq e f).Leads s u := by
  obtain ⟨more, hmore⟩ := he.exists_ends
  obtain ⟨more', hmore'⟩ := hf.exists_ends
  simp [Leads, ends_seq, hmore, hmore']

theorem Leads.opt (h : e.Leads s t) : (Expr.opt true e).Leads s t := by
  obtain ⟨more, hmore⟩ := h.exists_ends
  simp [Leads, ends_opt, hmore]

theorem leads_opt_of_nil (h : e.ends s = []) : (Expr.opt true e).Leads s s := by
  simp [Leads, ends_opt, h]

theorem Leads.alt_left (h : e.Leads s t) : (Expr.alt e f).Leads s t := by
  obtain ⟨more, hmore⟩ := h.exists_ends
  simp [Leads, ends_alt, hmore]

theorem Leads.alt_right (he : e.ends s = []) (hf : f.Leads s t) : (Expr.alt e f).Leads s t := by
  obtain ⟨more, hmore⟩ := hf.exists_ends
  simp [Leads, ends_alt, he, hmore]

theorem Leads.group (index : Nat) (h : e.Leads s t) :
    (Expr.group index e).Leads s (t.close index s.place) := by
  obtain ⟨more, hmore⟩ := h.exists_ends
  simp [Leads, ends_group, hmore]

theorem leads_assert {a : Assertion} (h : a.holds s.before s.place.rest.head? = true) :
    (Expr.assert a).Leads s s := by
  simp [Leads, ends_assert, h]

theorem leads_set (hc : cs.mem anyCase c = true) (h : s.Passes [c] t) :
    (Expr.set cs anyCase).Leads s t := by
  have hhead : s.place.rest.head? = some c := by rw [h.rest]; rfl
  rw [Leads, ends_set hhead hc, h.eq]
  rfl

theorem leads_many (hw : ∀ c ∈ w, cs.mem anyCase c = true) (h : s.Passes w t)
    (hstop : t.place.rest.head?.any (cs.mem anyCase) = false) :
    (Expr.star true (.set cs anyCase)).Leads s t := by
  rw [Leads, head?_ends_many, leading_eq h.rest hw hstop, h.eq]

theorem leads_run (hne : w ≠ []) (hw : ∀ c ∈ w, cs.mem anyCase c = true) (h : s.Passes w t)
    (hstop : t.place.rest.head?.any (cs.mem anyCase) = false) :
    (Expr.plus true (.set cs anyCase)).Leads s t := by
  obtain ⟨c, v, rfl⟩ := List.exists_cons_of_ne_nil hne
  have hstart : s.place.rest.head?.any (cs.mem anyCase) = true := by
    rw [h.rest]
    exact hw c List.mem_cons_self
  rw [Leads, head?_ends_run hstart, leading_eq h.rest hw hstop, h.eq]

theorem leads_word {ds : List Char} (h : s.Passes ds t) (he : e.Leads t u) :
    (word ds e).Leads s u := by
  have hprefix : ds <+: s.place.rest := ⟨_, h.rest.symm⟩
  rw [Leads, ends_word, if_pos hprefix, ← h.eq]
  exact he

/-- a word ends where no more characters of a word follow -/
theorem leads_bounded {ds : List Char} (h : s.Passes ds t)
    (hlast : Assertion.isWord ds.getLast? = true)
    (hnext : t.place.rest.head?.any isWordCharacter = false) :
    (word ds (.assert .wordBoundary)).Leads s t := by
  have hbefore : Assertion.isWord t.before = true := by
    rw [h.eq, Spot.after_before]
    cases hds : ds.getLast? with
    | none => simp [hds, Assertion.isWord] at hlast
    | some c => simpa [hds] using hlast
  have hafter : Assertion.isWord t.place.rest.head? = false := by
    cases hhead : t.place.rest.head? with
    | none => rfl
    | some c =>
      rw [hhead] at hnext
      exact hnext
  refine leads_word h (leads_assert ?_)
  rw [Assertion.holds, hbefore, hafter]
  rfl

/-- the characters of a text, one after the other -/
def literal (ds : List Char) : Expr := all (ds.map fun c => .set (.one c) false)

theorem ends_literal {ds : List Char} (hne : ds ≠ []) (s : Spot) :
    (literal ds).ends s = if ds <+: s.place.rest then [s.after ds] else [] := by
  induction ds generalizing s with
  | nil => exact absurd rfl hne
  | cons c ds ih =>
    have hfirst : ∀ e, (Expr.seq (.set (.one c) false) e).ends s =
        if [c] <+: s.place.rest then e.ends (s.after [c]) else [] := fun e => ends_word [c] e s
    cases ds with
    | nil =>
      have hset : (Expr.set (.one c) false).ends s =
          (Expr.seq (.set (.one c) false) .empty).ends s := by
        rw [ends_seq]
        exact (List.flatMap_singleton' _).symm
      exact hset.trans (hfirst .empty)
    | cons d ds =>
      have hrest := ih (List.cons_ne_nil d ds) (s.after [c])
      show (Expr.seq (.set (.one c) false) (literal (d :: ds))).ends s = _
      rw [hfirst, hrest, Spot.after_cons s c (d :: ds)]
      cases hs : s.place.rest with
      | nil => simp
      | cons x rest => by_cases hx : c = x <;> simp [hs, List.cons_prefix_cons, hx]

/-- rounds that are each preferred, and then no more -/
inductive Rounds (e : Expr) : Spot → Spot → Prop
  | stop {s : Spot} : e.ends s = [] → Rounds e s s
  | round {s t u : Spot} {w : List Char} : w ≠ [] → s.Passes w t → e.Leads s t → Rounds e t u →
      Rounds e s u

theorem Rounds.head? (h : Rounds e s t) (left : List Char)
    (hleft : s.place.rest.length ≤ left.length) :
    (roundsEnds true e.ends left s).head? = some t := by
  induction h generalizing left with
  | stop hnil =>
    cases left with
    | nil => rfl
    | cons c left => simp [roundsEnds, hnil]
  | round hne hpasses hleads _ ih =>
    have hlt := hpasses.place.length_lt hne
    cases left with
    | nil =>
      rw [List.length_nil] at hleft
      omega
    | cons c left =>
      obtain ⟨more, hmore⟩ := hleads.exists_ends
      have hrest := ih left (by rw [List.length_cons] at hleft; omega)
      obtain ⟨others, hothers⟩ := List.head?_eq_some_iff.mp hrest
      simp [roundsEnds, hmore, hothers]

theorem Rounds.leads (h : Rounds e s t) (he : e.Firm) : (Expr.star true e).Leads s t := by
  rw [Leads, he.ends_star]
  exact h.head? s.place.rest (Nat.le_refl _)

end Expr

/-! ## patterns -/

namespace Pattern

theorem matchAt?_of_leads (source : String) {e : Expr} {p : Place} {t : Spot}
    (h : e.Leads (Spot.start p) t) :
    (starting source e).matchAt? p = some (found e p t, t.place) := by
  rw [matchAt?_starting, h]
  rfl

theorem matchAt?_eq_none_of_ends (source : String) {e : Expr} {p : Place}
    (h : e.ends (Spot.start p) = []) : (starting source e).matchAt? p = none := by
  rw [matchAt?_starting, h]
  rfl

theorem mem_ends_of_matchAt? {source : String} {e : Expr} {p q : Place} {m : Match}
    (h : (starting source e).matchAt? p = some (m, q)) :
    ∃ t ∈ e.ends (Spot.start p), found e p t = m ∧ t.place = q := by
  rw [matchAt?_starting] at h
  obtain ⟨t, ht, hfound⟩ := Option.map_eq_some_iff.mp h
  obtain ⟨rfl, rfl⟩ := Prod.mk.inj hfound
  exact ⟨t, List.mem_of_head? ht, rfl, rfl⟩

theorem captured_found {e : Expr} (h : e.groupCount = 0) {p : Place} {s : Spot} {cs : List Char}
    (hp : p.Passes cs s.place) : (found e p s).captured = String.ofList cs := by
  simp [found, Match.captured, h, hp.textTo]

/-- of a single group, the text is kept -/
theorem captured_group {e : Expr} (h : e.groupCount = 1) {p a b : Place} {t : Spot} {w : List Char}
    (hgroups : t.groups = [(1, a, b)]) (hw : a.Passes w b) :
    (found e p t).captured = String.ofList w := by
  simp [found, Match.captured, h, Spot.groupText, hgroups, hw.textTo]

end Pattern

/-- **A pattern that never matches where ignorable text begins is looked for after all of it.** -/
theorem lookAlong?_eq {ignorables : List Pattern} {pattern : Pattern}
    (h : ∀ p q, skipOne? ignorables p = some q → pattern.matchAt? p = none) (left : List Char)
    (p : Place) : lookAlong? ignorables pattern left p =
      pattern.matchAt? (skipAlong ignorables left p) := by
  induction left generalizing p with
  | nil => rfl
  | cons c left ih =>
    rw [lookAlong?, skipAlong]
    cases hskip : skipOne? ignorables p with
    | none =>
      dsimp only
      cases pattern.matchAt? p <;> rfl
    | some q =>
      rw [h p q hskip]
      exact ih q

/-- the words that a pattern matches, each with the text that is kept of it; none of them begins with
white space -/
structure Pattern.Tokens (pattern : Pattern) (T : List Char → String → Prop) : Prop where
  sound {p q : Place} {m : Match} : pattern.matchAt? p = some (m, q) →
    ∃ w, T w m.captured ∧ p.Passes w q
  visible {w : List Char} {text : String} : T w text → ∃ c v, w = c :: v ∧ isWhiteSpace c = false

namespace Pattern.Tokens
variable {pattern : Pattern} {T : List Char → String → Prop} {p q : Place} {m : Match}
  {w : List Char} {text : String}

theorem dark (h : pattern.Tokens T) : pattern.Dark := by
  intro p hblank
  cases hmatch : pattern.matchAt? p with
  | none => rfl
  | some found =>
    obtain ⟨m, q⟩ := found
    obtain ⟨w, hw, hpasses⟩ := h.sound hmatch
    obtain ⟨c, v, rfl, hc⟩ := h.visible hw
    rw [hpasses.rest, List.cons_append, List.head?_cons, Option.any_some, hc] at hblank
    cases hblank

theorem takes_of_look (h : pattern.Tokens T)
    (hlook : lookAlong? [.blank] pattern p.rest p = some (m, q)) :
    ∃ w, T w m.captured ∧ p.Takes w q := by
  rw [lookAlong?_blank h.dark] at hlook
  obtain ⟨w, hw, hpasses⟩ := h.sound hlook
  exact ⟨w, hw, Place.takes_of_sweep hpasses⟩

theorem look_eq_none (h : pattern.Tokens T)
    (hnone : ∀ c v text, T (c :: v) text → p.next? ≠ some c) :
    lookAlong? [.blank] pattern p.rest p = none := by
  cases hlook : lookAlong? [.blank] pattern p.rest p with
  | none => rfl
  | some found =>
    obtain ⟨m, q⟩ := found
    obtain ⟨w, hw, htakes⟩ := h.takes_of_look hlook
    obtain ⟨c, v, rfl, hc⟩ := h.visible hw
    exact absurd (htakes.next? hc) (hnone c v _ hw)

/-- a word is found after white space as it is found where it begins -/
theorem look_of_takes (h : pattern.Tokens T) (hw : ∃ text, T w text) (hp : p.Takes w q)
    {P : Match → Prop}
    (hmatch : ∀ p : Place, p.Passes w q → ∃ m, pattern.matchAt? p = some (m, q) ∧ P m) :
    ∃ m, lookAlong? [.blank] pattern p.rest p = some (m, q) ∧ P m := by
  obtain ⟨text, hw⟩ := hw
  obtain ⟨c, v, rfl, hc⟩ := h.visible hw
  rw [lookAlong?_blank h.dark]
  exact hmatch _ (hp.sweep hc)

end Pattern.Tokens

end Packrat
