import Packrat.Proofs.Arithmetic.Phrases
import Packrat.Proofs.Tokens

/-!
# Numbers in a text

* `Arithmetic.numberPattern`      the pattern of numbers;
* `Arithmetic.afterNumber`        where it ends;
* `Arithmetic.exists_numeral`     what it passes is a numeral;
* `Arithmetic.look?_number`, `Arithmetic.look?_numeral`   a number is read after white space, and so
                                  is any numeral that what follows does not prolong.
-/

namespace Packrat

namespace Arithmetic

/-! ## numbers -/

/-- digits, and maybe a point and more digits, at the beginning of what follows -/
def numberExpr : Expr :=
  .seq (.assert .textStart)
    (.seq (.plus true (.set .digit false))
      (.opt true (.seq (.set (.one '.') false) (.plus true (.set .digit false)))))

/-- the pattern of numbers -/
def numberPattern : Pattern := ⟨Pattern.anchoredSource "\\d+(?:\\.\\d+)?", numberExpr⟩

theorem anchored_number : Pattern.anchored "\\d+(?:\\.\\d+)?" = .ok numberPattern := rfl

/-- the place after a point and the digits after it, if there are any -/
def afterFraction (p : Place) : Place :=
  match p.rest with
  | [] => p
  | c :: rest =>
    if c = '.' ∧ rest.head?.any isDecimalDigit = true then (p.past c rest).sweep isDecimalDigit
    else p

/-- the place after the number that begins with the digits here -/
def afterNumber (p : Place) : Place := afterFraction (p.sweep isDecimalDigit)

/-- without a point and digits after it, nothing more is taken -/
theorem leads_fraction (u : Spot) : ∃ t : Spot, t.place = afterFraction u.place ∧
    (Expr.opt true (.seq (.set (.one '.') false) (.plus true (.set .digit false)))).Leads u t := by
  rw [afterFraction]
  cases hrest : u.place.rest with
  | nil =>
    have hpoint : (Expr.set (.one '.') false).ends u = [] := Expr.ends_set_eq_nil (by rw [hrest]; rfl)
    exact ⟨u, rfl, Expr.leads_opt_of_nil (Expr.ends_seq_eq_nil hpoint)⟩
  | cons c rest =>
    dsimp only
    by_cases hc : c = '.'
    · have hpoint : (Expr.set (.one '.') false).ends u = [u.after [c]] :=
        Expr.ends_set (by rw [hrest]; rfl) (by rw [Expr.mem_one, hc]; rfl)
      have hplace : (u.after [c]).place = u.place.past c rest := by simp [Spot.after, hrest, Spot.past]
      by_cases hdigit : rest.head?.any isDecimalDigit = true
      · have hany : (u.after [c]).place.rest.head?.any (CharSet.mem false .digit) = true := by
          rw [hplace]
          exact hdigit
        refine ⟨_, ?_, (Expr.Leads.seq (congrArg List.head? hpoint) (Expr.head?_ends_run hany)).opt⟩
        rw [if_pos ⟨hc, hdigit⟩, Expr.place_after_leading, hplace]
        rfl
      · have hnone : (u.after [c]).place.rest.head?.any (CharSet.mem false .digit) = false := by
          rw [hplace]
          exact Bool.eq_false_iff.mpr hdigit
        refine ⟨u, (if_neg fun h => hdigit h.2).symm, Expr.leads_opt_of_nil ?_⟩
        rw [Expr.ends_seq, hpoint, List.flatMap_singleton, Expr.ends_run_eq_nil hnone]
    · have hpoint : (Expr.set (.one '.') false).ends u = [] :=
        Expr.ends_set_eq_nil (by simp [hrest, Expr.mem_one, hc])
      exact ⟨u, (if_neg fun h => hc h.1).symm, Expr.leads_opt_of_nil (Expr.ends_seq_eq_nil hpoint)⟩

theorem firstEnd?_number (p : Place) :
    (numberExpr.firstEnd? p).map Spot.place =
      if p.rest.head?.any isDecimalDigit then some (afterNumber p) else none := by
  rw [Expr.firstEnd?_eq, numberExpr, Expr.ends_textStart]
  split
  · next hdigit =>
    have hrun : ((Expr.plus true (.set .digit false)).ends (Spot.start p)).head? =
        some ((Spot.start p).after (Expr.leading .digit false (Spot.start p))) :=
      Expr.head?_ends_run hdigit
    obtain ⟨t, ht, hleads⟩ := leads_fraction
      ((Spot.start p).after (Expr.leading .digit false (Spot.start p)))
    rw [Expr.Leads.seq hrun hleads, Option.map_some, ht, Expr.place_after_leading]
    rfl
  · next hdigit =>
    have hnone : (Expr.plus true (.set .digit false)).ends (Spot.start p) = [] :=
      Expr.ends_run_eq_nil (Bool.eq_false_iff.mpr hdigit)
    rw [Expr.ends_seq_eq_nil hnone]
    rfl

theorem matchAt?_number {p : Place} (h : p.rest.head?.any isDecimalDigit = true) :
    ∃ found, numberPattern.matchAt? p = some (found, afterNumber p) ∧
      found.captured = p.textTo (afterNumber p) := by
  have hend := firstEnd?_number p
  rw [if_pos h] at hend
  obtain ⟨s, hs, hplace⟩ := Option.map_eq_some_iff.mp hend
  rw [← hplace]
  exact ⟨_, Pattern.matchAt?_eq_some hs, rfl⟩

theorem matchAt?_number_eq_none {p : Place} (h : p.rest.head?.any isDecimalDigit = false) :
    numberPattern.matchAt? p = none := by
  have hend := firstEnd?_number p
  rw [h] at hend
  exact Pattern.matchAt?_eq_none (Option.map_eq_none_iff.mp hend)

theorem dark_number : numberPattern.Dark := by
  intro p hblank
  refine matchAt?_number_eq_none ?_
  cases hhead : p.rest.head? with
  | none => rfl
  | some c =>
    rw [hhead] at hblank
    cases hdigit : isDecimalDigit c with
    | false => exact hdigit
    | true =>
      rw [Option.any_some, not_whiteSpace_of_digit hdigit] at hblank
      cases hblank

theorem afterFraction_eq_self {p : Place} (h : p.rest.head? ≠ some '.') : afterFraction p = p := by
  rw [afterFraction]
  cases hrest : p.rest with
  | nil => rfl
  | cons c rest =>
    rw [hrest] at h
    exact if_neg fun hc => h (congrArg some hc.1)

/-- the pattern ends after a numeral -/
theorem exists_numeral {p : Place} (h : p.rest.head?.any isDecimalDigit = true) :
    ∃ cs, Numeral cs ∧ p.Passes cs (afterNumber p) := by
  have htake : ∀ (p : Place), ∀ c ∈ p.rest.takeWhile isDecimalDigit, isDecimalDigit c = true :=
    fun p c hc => List.all_eq_true.mp List.all_takeWhile c hc
  have hpos : ∀ (p : Place), p.rest.head?.any isDecimalDigit = true →
      p.rest.takeWhile isDecimalDigit ≠ [] := by
    intro p h
    cases hrest : p.rest with
    | nil => simp [hrest] at h
    | cons c rest =>
      have hc : isDecimalDigit c = true := by simpa [hrest] using h
      rw [List.takeWhile_cons_of_pos hc]
      exact List.cons_ne_nil _ _
  have hwhole := p.passes_sweep isDecimalDigit
  have hcs := Numeral.whole (hpos p h) (htake p)
  rw [afterNumber, afterFraction]
  cases hrest : (p.sweep isDecimalDigit).rest with
  | nil => exact ⟨_, hcs, hwhole⟩
  | cons c rest =>
    dsimp only
    split
    · next hmore =>
      obtain ⟨rfl, hdigit⟩ := hmore
      let u : Place := (p.sweep isDecimalDigit).past '.' rest
      have hpoint : (p.sweep isDecimalDigit).Passes ['.'] u := ⟨hrest, by simp [u, Place.past]⟩
      have hds := u.passes_sweep isDecimalDigit
      refine ⟨_, .decimal (hpos p h) (htake p) (hpos u hdigit) (htake u), ?_⟩
      exact hwhole.trans (hpoint.trans hds)
    · exact ⟨_, hcs, hwhole⟩

/-- a numeral that cannot go on is what the pattern matches -/
theorem afterNumber_of_numeral {p q : Place} {cs : List Char} (hcs : Numeral cs)
    (hp : p.Passes cs q) (hdigit : q.rest.head?.any isDecimalDigit = false)
    (hpoint : q.rest.head? ≠ some '.') : afterNumber p = q := by
  rw [afterNumber]
  cases hcs with
  | whole hne hall => rw [Place.sweep_of_passes hp hall hdigit, afterFraction_eq_self hpoint]
  | @decimal cs ds hne hall hne' hall' =>
    have hrest : p.rest = cs ++ ('.' :: ds ++ q.rest) := by rw [hp.rest, List.append_assoc]
    obtain ⟨u, hu, hurest⟩ := Place.exists_passes hrest
    have hnodigit : isDecimalDigit '.' = false := by decide
    have hsweep := Place.sweep_of_passes hu hall (by simpa [hurest] using hnodigit)
    have hstart : (ds ++ q.rest).head?.any isDecimalDigit = true := by
      cases ds with
      | nil => exact absurd rfl hne'
      | cons d ds => exact hall' d List.mem_cons_self
    have hpast : (u.past '.' (ds ++ q.rest)).Passes ds q := by
      refine ⟨rfl, ?_⟩
      show q.offset = u.offset + '.'.utf8Size + byteLength ds
      rw [hp.offset, hu.offset, byteLength_append, byteLength_cons]
      omega
    rw [hsweep, afterFraction, hurest]
    show (if '.' = '.' ∧ (ds ++ q.rest).head?.any isDecimalDigit = true then _ else _) = _
    rw [if_pos ⟨rfl, hstart⟩]
    exact Place.sweep_of_passes hpast hall' hdigit

theorem Numeral.head {cs : List Char} (h : Numeral cs) :
    ∃ c ds, cs = c :: ds ∧ isDecimalDigit c = true := by
  cases h with
  | whole hne hall =>
    obtain ⟨c, ds, rfl⟩ := List.exists_cons_of_ne_nil hne
    exact ⟨c, ds, rfl, hall c List.mem_cons_self⟩
  | @decimal cs es hne hall hne' hall' =>
    obtain ⟨c, ds, rfl⟩ := List.exists_cons_of_ne_nil hne
    exact ⟨c, ds ++ '.' :: es, rfl, hall c List.mem_cons_self⟩

/-! Numbers are read after white space. -/

variable {p q : Place} {f : Nat}

theorem look?_number (h : p.next?.any isDecimalDigit = true) :
    ∃ cs q found, Numeral cs ∧ p.Takes cs q ∧ found.captured = String.ofList cs ∧
      ∀ f, (Reader.mk p f).look? [.blank] numberPattern = some (found, ⟨q, max f q.offset⟩) := by
  obtain ⟨cs, hcs, hpasses⟩ := exists_numeral h
  obtain ⟨found, hfound, htext⟩ := matchAt?_number h
  have hlook := lookAlong?_blank dark_number p
  rw [hfound] at hlook
  rw [hpasses.textTo] at htext
  exact ⟨cs, _, found, hcs, Place.takes_of_sweep hpasses, htext,
    fun f => Reader.look?_eq_some.mpr ⟨_, hlook, rfl⟩⟩

theorem look?_number_eq_none (h : p.next?.any isDecimalDigit = false) :
    (Reader.mk p f).look? [.blank] numberPattern = none := by
  have hlook := lookAlong?_blank dark_number p
  rw [matchAt?_number_eq_none h] at hlook
  exact Reader.look?_eq_none.mpr hlook

theorem look?_numeral {cs : List Char} (hcs : Numeral cs) (hp : p.Takes cs q)
    (hdigit : q.rest.head?.any isDecimalDigit = false) (hpoint : q.rest.head? ≠ some '.') :
    ∃ found, found.captured = String.ofList cs ∧
      ∀ f, (Reader.mk p f).look? [.blank] numberPattern = some (found, ⟨q, max f q.offset⟩) := by
  obtain ⟨c, ds, rfl, hc⟩ := hcs.head
  have hpasses := hp.sweep (not_whiteSpace_of_digit hc)
  have hstart : (p.sweep isWhiteSpace).rest.head?.any isDecimalDigit = true := by
    rw [hpasses.rest]
    exact hc
  obtain ⟨found, hfound, htext⟩ := matchAt?_number hstart
  rw [afterNumber_of_numeral hcs hpasses hdigit hpoint] at hfound htext
  have hlook := lookAlong?_blank dark_number p
  rw [hfound] at hlook
  rw [hpasses.textTo] at htext
  exact ⟨found, htext, fun f => Reader.look?_eq_some.mpr ⟨q, hlook, rfl⟩⟩

end Arithmetic

end Packrat
