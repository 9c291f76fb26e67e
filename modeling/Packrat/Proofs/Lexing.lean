import Mathlib.Data.List.TakeWhile
import Packrat.Proofs.Reading

/-!
# Tokens of a text

What the patterns of simple tokens match: runs of characters of one class, and single symbols.

* `not_whiteSpace_of_digit`, `not_word_of_whiteSpace`   classes of characters that exclude each other;
* `Place.Passes chunk`   from one place to another, over the characters of `chunk`;
* `Place.sweep f`        the place after all characters with `f` that follow;
* `Expr.place_after_leading`   all characters of a set that follow are passed like this;
* `Expr.symbol`, `Expr.someOf`   a symbol, and a run of characters, where they begin;
* `lookAlong?_blank`     a token that does not begin with white space is looked for after all of it;
* `skipAll_blank`        skipping white space leaves none;
* `Place.next?`, `Place.Takes`   the character after white space, and the way over a token.
-/

namespace Packrat

/-! ## classes of characters -/

namespace CodeRanges

theorem exists_of_contains {ranges : CodeRanges} {c : Char}
    (h : ranges.contains c = true) : ∃ r ∈ ranges, r.1 ≤ c.toNat ∧ c.toNat ≤ r.2 := by
  induction ranges with
  | nil => cases h
  | cons r ranges ih =>
    rw [CodeRanges.contains] at h
    split at h
    · cases h
    · next hlo =>
      rcases (Bool.or_eq_true _ _).mp h with hhi | hmore
      · exact ⟨r, List.mem_cons_self, by omega, by simpa using hhi⟩
      · obtain ⟨r', hr', hc⟩ := ih hmore
        exact ⟨r', List.mem_cons_of_mem r hr', hc⟩

/-- a character of the one table is not in the other, if no range of the one meets one of the other -/
theorem not_contains_of_apart {ranges others : CodeRanges} {c : Char}
    (hapart : ∀ r ∈ ranges, ∀ s ∈ others, r.2 < s.1 ∨ s.2 < r.1) (h : ranges.contains c = true) :
    others.contains c = false := by
  cases hother : others.contains c with
  | false => rfl
  | true =>
    obtain ⟨r, hr, hr'⟩ := exists_of_contains h
    obtain ⟨s, hs, hs'⟩ := exists_of_contains hother
    have := hapart r hr s hs
    omega

end CodeRanges

theorem not_whiteSpace_of_digit {c : Char} (h : isDecimalDigit c = true) :
    isWhiteSpace c = false :=
  CodeRanges.not_contains_of_apart (by decide) h

theorem not_word_of_whiteSpace {c : Char} (h : isWhiteSpace c = true) :
    isWordCharacter c = false :=
  CodeRanges.not_contains_of_apart (by decide +kernel) h

/-! ## places -/

namespace Place

/-- from `p` over the characters of `chunk` to `q` -/
structure Passes (p : Place) (chunk : List Char) (q : Place) : Prop where
  rest : p.rest = chunk ++ q.rest
  offset : q.offset = p.offset + byteLength chunk

theorem Passes.refl (p : Place) : p.Passes [] p := ⟨rfl, rfl⟩

theorem Passes.trans {p q r : Place} {s t : List Char} (h : p.Passes s q) (h' : q.Passes t r) :
    p.Passes (s ++ t) r := by
  refine ⟨?_, ?_⟩
  · rw [h.rest, h'.rest, List.append_assoc]
  · rw [h'.offset, h.offset, byteLength_append]
    omega

theorem Passes.le {p q : Place} {s : List Char} (h : p.Passes s q) : p ≤ q :=
  ⟨s, h.rest, h.offset⟩

theorem Passes.length_le {p q : Place} {s : List Char} (h : p.Passes s q) :
    q.rest.length ≤ p.rest.length := by
  rw [h.rest, List.length_append]
  omega

theorem Passes.length_lt {p q : Place} {s : List Char} (h : p.Passes s q) (hs : s ≠ []) :
    q.rest.length < p.rest.length := by
  have hpos := List.length_pos_iff.mpr hs
  rw [h.rest, List.length_append]
  omega

theorem Passes.textTo {p q : Place} {s : List Char} (h : p.Passes s q) :
    p.textTo q = String.ofList s := by
  have hlength : q.offset - p.offset = byteLength s := by
    have := h.offset
    omega
  rw [Place.textTo, hlength, h.rest, takeBytes_append]

theorem Passes.split {p r : Place} {s t : List Char} (h : p.Passes (s ++ t) r) :
    ∃ q, p.Passes s q ∧ q.Passes t r := by
  refine ⟨⟨p.offset + byteLength s, t ++ r.rest⟩, ⟨?_, rfl⟩, rfl, ?_⟩
  · rw [h.rest, List.append_assoc]
  · rw [h.offset, byteLength_append, Nat.add_assoc]

/-- what is passed is determined by where it ends -/
theorem Passes.unique {p q q' : Place} {s : List Char} (h : p.Passes s q) (h' : p.Passes s q') :
    q = q' := by
  have hrest : q.rest = q'.rest := List.append_cancel_left (h.rest.symm.trans h'.rest)
  have hoffset : q.offset = q'.offset := h.offset.trans h'.offset.symm
  cases q
  cases q'
  cases hrest
  cases hoffset
  rfl

/-- the place after all characters with `f` that follow -/
def sweep (f : Char → Bool) (p : Place) : Place :=
  ⟨p.offset + byteLength (p.rest.takeWhile f), p.rest.dropWhile f⟩

theorem passes_sweep (f : Char → Bool) (p : Place) : p.Passes (p.rest.takeWhile f) (p.sweep f) :=
  ⟨List.takeWhile_append_dropWhile.symm, rfl⟩

theorem sweep_eq_self {f : Char → Bool} {p : Place} (h : p.rest.head?.any f = false) :
    p.sweep f = p := by
  have htake : p.rest.takeWhile f = [] := by
    cases hrest : p.rest with
    | nil => rfl
    | cons c rest =>
      rw [hrest] at h
      exact List.takeWhile_cons_of_neg (by simpa using h)
  have h' := p.passes_sweep f
  rw [htake] at h'
  exact h'.unique (Passes.refl p)

theorem sweep_past {f : Char → Bool} {p : Place} {c : Char} {rest : List Char}
    (hrest : p.rest = c :: rest) (hc : f c = true) : p.sweep f = (p.past c rest).sweep f := by
  rw [sweep, sweep, hrest, List.takeWhile_cons_of_pos hc, List.dropWhile_cons_of_pos hc,
    byteLength_cons]
  show _ = Place.mk (p.offset + c.utf8Size + byteLength (rest.takeWhile f)) (rest.dropWhile f)
  rw [Nat.add_assoc]

theorem head?_sweep (f : Char → Bool) (p : Place) : (p.sweep f).rest.head?.any f = false := by
  show (p.rest.dropWhile f).head?.any f = false
  cases hdrop : p.rest.dropWhile f with
  | nil => rfl
  | cons c rest =>
    have hnot := List.head?_dropWhile_not f p.rest
    rw [hdrop] at hnot
    exact hnot

end Place

/-! ## expressions -/

theorem Spot.passes_after {s : Spot} {cs : List Char} (h : cs <+: s.place.rest) :
    s.place.Passes cs (s.after cs).place := by
  obtain ⟨rest, hrest⟩ := h
  refine ⟨?_, after_offset s cs⟩
  rw [after_rest, ← hrest, List.drop_left]

namespace Expr

theorem place_after_leading (cs : CharSet) (anyCase : Bool) (s : Spot) :
    (s.after (leading cs anyCase s)).place = s.place.sweep (cs.mem anyCase) :=
  (Spot.passes_after (List.takeWhile_prefix _)).unique (s.place.passes_sweep _)

/-- one symbol at the beginning of what follows -/
def symbol (c : Char) : Expr := .seq (.assert .textStart) (.set (.one c) false)

/-- characters of a set, as many as there are at the beginning of what follows -/
def someOf (cs : CharSet) : Expr := .seq (.assert .textStart) (.plus true (.set cs false))

theorem firstEnd?_symbol (c : Char) (p : Place) :
    (symbol c).firstEnd? p = match p.rest with
      | [] => none
      | d :: rest => if d = c then some ((Spot.start p).past d rest) else none := by
  have hplace : (Spot.start p).place = p := rfl
  rw [firstEnd?_eq, symbol, ends_textStart, ends_set_eq, hplace]
  cases hrest : p.rest with
  | nil => rfl
  | cons d rest =>
    by_cases hd : d = c
    · simp [mem_one, hd]
    · simp [mem_one, hd]

theorem firstEnd?_someOf (cs : CharSet) (p : Place) :
    (someOf cs).firstEnd? p = if p.rest.head?.any (cs.mem false) then
      some ((Spot.start p).after (leading cs false (Spot.start p))) else none := by
  rw [firstEnd?_eq, someOf, ends_textStart]
  split
  · next hany => exact head?_ends_run hany
  · next hany =>
    rw [ends_run_eq_nil (Bool.eq_false_iff.mpr hany)]
    rfl

end Expr

/-! ## white space before a token -/

/-- the pattern of white space -/
def Pattern.blank : Pattern := ⟨"\\A(?:\\s+)", .someOf .space⟩

theorem skipOne?_blank (p : Place) :
    skipOne? [.blank] p =
      if p.rest.head?.any isWhiteSpace then some (p.sweep isWhiteSpace) else none := by
  have hend : Pattern.blank.endAt? p =
      if p.rest.head?.any isWhiteSpace then some (p.sweep isWhiteSpace) else none := by
    rw [Pattern.endAt?]
    show Option.map Spot.place ((Expr.someOf .space).firstEnd? p) = _
    rw [Expr.firstEnd?_someOf]
    show Option.map Spot.place (if p.rest.head?.any isWhiteSpace = true then
      some ((Spot.start p).after (Expr.leading .space false (Spot.start p))) else none) = _
    split
    · exact congrArg some (Expr.place_after_leading .space false (Spot.start p))
    · rfl
  rw [skipOne?, List.findSome?_singleton, hend]
  by_cases hblank : p.rest.head?.any isWhiteSpace = true
  · have hmoved : p.offset < (p.sweep isWhiteSpace).offset := by
      cases hrest : p.rest with
      | nil => simp [hrest] at hblank
      | cons c rest =>
        have hc : isWhiteSpace c = true := by simpa [hrest] using hblank
        have hle := Place.offset_le ((p.past c rest).passes_sweep isWhiteSpace).le
        have hpos : 0 < c.utf8Size := c.utf8Size_pos
        rw [Place.sweep_past hrest hc]
        have hpast : (p.past c rest).offset = p.offset + c.utf8Size := rfl
        omega
    rw [if_pos hblank]
    exact if_pos hmoved
  · rw [if_neg hblank]

theorem skipOne?_sweep (p : Place) : skipOne? [.blank] (p.sweep isWhiteSpace) = none := by
  rw [skipOne?_blank, Place.head?_sweep]
  rfl

theorem skipAll_blank (p : Place) : skipAll [.blank] p = p.sweep isWhiteSpace := by
  have hsweep : ∀ left, skipAlong [.blank] left (p.sweep isWhiteSpace) = p.sweep isWhiteSpace := by
    intro left
    cases left with
    | nil => rfl
    | cons c left => rw [skipAlong, skipOne?_sweep]
  rw [skipAll]
  cases hrest : p.rest with
  | nil =>
    rw [Place.sweep_eq_self (by simp [hrest])]
    rfl
  | cons c rest =>
    rw [skipAlong, skipOne?_blank]
    split
    · next hskip =>
      split at hskip
      · cases hskip
      · next hblank => rw [Place.sweep_eq_self (by simpa using hblank)]
    · next q hskip =>
      split at hskip
      · cases hskip
        exact hsweep rest
      · cases hskip

/-- the pattern does not match where white space follows -/
def Pattern.Dark (pattern : Pattern) : Prop :=
  ∀ p : Place, p.rest.head?.any isWhiteSpace = true → pattern.matchAt? p = none

/-- **A token is looked for after all white space.** -/
theorem lookAlong?_blank {pattern : Pattern} (hdark : pattern.Dark) (p : Place) :
    lookAlong? [.blank] pattern p.rest p = pattern.matchAt? (p.sweep isWhiteSpace) := by
  have hsweep : ∀ left, lookAlong? [.blank] pattern left (p.sweep isWhiteSpace) =
      pattern.matchAt? (p.sweep isWhiteSpace) := by
    intro left
    cases left with
    | nil => rfl
    | cons c left =>
      rw [lookAlong?]
      cases pattern.matchAt? (p.sweep isWhiteSpace) with
      | none =>
        rw [skipOne?_sweep]
      | some found => rfl
  by_cases hblank : p.rest.head?.any isWhiteSpace = true
  · cases hrest : p.rest with
    | nil => simp [hrest] at hblank
    | cons c rest =>
      rw [lookAlong?, hdark p hblank, skipOne?_blank, if_pos hblank]
      exact hsweep rest
  · have hself := Place.sweep_eq_self (by simpa using hblank)
    have hlook := hsweep p.rest
    rw [hself] at hlook
    rw [hself]
    exact hlook

/-! ## tokens -/

namespace Place

/-- the first character after white space -/
def next? (p : Place) : Option Char := (p.sweep isWhiteSpace).rest.head?

theorem next?_eq_none {p : Place} : p.next? = none ↔ ∀ c ∈ p.rest, isWhiteSpace c = true := by
  rw [next?, List.head?_eq_none_iff, sweep, List.dropWhile_eq_nil_iff]

/-- from `p` over white space and a token to `q` -/
def Takes (token : List Char) (p q : Place) : Prop :=
  ∃ blank, (∀ c ∈ blank, isWhiteSpace c = true) ∧ p.Passes (blank ++ token) q

theorem sweep_of_passes {f : Char → Bool} {p q : Place} {s : List Char} (h : p.Passes s q)
    (hs : ∀ c ∈ s, f c = true) (hq : q.rest.head?.any f = false) : p.sweep f = q := by
  induction s generalizing p with
  | nil => rw [h.unique (Passes.refl p), sweep_eq_self ((Passes.refl p).unique h ▸ hq)]
  | cons c s ih =>
    obtain ⟨hc, hs⟩ := List.forall_mem_cons.mp hs
    have hrest : p.rest = c :: (s ++ q.rest) := h.rest
    have hoffset : q.offset = p.offset + c.utf8Size + byteLength s := by
      rw [h.offset, byteLength_cons, Nat.add_assoc]
    rw [sweep_past hrest hc]
    exact ih ⟨rfl, hoffset⟩ hs

theorem takes_of_sweep {p q : Place} {token : List Char}
    (h : (p.sweep isWhiteSpace).Passes token q) : p.Takes token q := by
  refine ⟨p.rest.takeWhile isWhiteSpace, fun c hc => ?_, (p.passes_sweep isWhiteSpace).trans h⟩
  exact List.all_eq_true.mp List.all_takeWhile c hc

/-- the first place of a stretch of text, and where it ends -/
theorem exists_passes {p : Place} {s t : List Char} (h : p.rest = s ++ t) :
    ∃ q, p.Passes s q ∧ q.rest = t :=
  ⟨⟨p.offset + byteLength s, t⟩, ⟨h, rfl⟩, rfl⟩

theorem Takes.sweep {p q : Place} {c : Char} {token : List Char} (h : p.Takes (c :: token) q)
    (hc : isWhiteSpace c = false) : (p.sweep isWhiteSpace).Passes (c :: token) q := by
  obtain ⟨blank, hblank, hpasses⟩ := h
  have hrest : p.rest = blank ++ (c :: token ++ q.rest) := by rw [hpasses.rest, List.append_assoc]
  obtain ⟨p', hp', hp'rest⟩ := exists_passes hrest
  have hsweep := sweep_of_passes hp' hblank (by simpa [hp'rest] using hc)
  have hoffset := hpasses.offset
  rw [hsweep]
  refine ⟨hp'rest, ?_⟩
  rw [hoffset, hp'.offset, byteLength_append]
  omega

theorem Takes.next? {p q : Place} {c : Char} {token : List Char} (h : p.Takes (c :: token) q)
    (hc : isWhiteSpace c = false) : p.next? = some c := by
  rw [Place.next?, (h.sweep hc).rest]
  rfl

theorem exists_takes {p : Place} {c : Char} (h : p.next? = some c) : ∃ q, p.Takes [c] q := by
  obtain ⟨rest, hrest⟩ := List.head?_eq_some_iff.mp h
  obtain ⟨q, hq, -⟩ := exists_passes (s := [c]) hrest
  exact ⟨q, takes_of_sweep hq⟩

theorem Takes.length_lt {p q : Place} {token : List Char} (h : p.Takes token q)
    (htoken : token ≠ []) : q.rest.length < p.rest.length := by
  obtain ⟨blank, -, hpasses⟩ := h
  exact hpasses.length_lt (by simp [htoken])

theorem Takes.offset_lt {p q : Place} {c : Char} {token : List Char} (h : p.Takes (c :: token) q) :
    p.offset < q.offset := by
  obtain ⟨blank, -, hpasses⟩ := h
  have hpos : 0 < c.utf8Size := c.utf8Size_pos
  rw [hpasses.offset, byteLength_append, byteLength_cons]
  omega

end Place

theorem skipAll_blank_eq_nil {p : Place} :
    (skipAll [.blank] p).rest = [] ↔ ∀ c ∈ p.rest, isWhiteSpace c = true := by
  rw [skipAll_blank, ← Place.next?_eq_none, Place.next?, List.head?_eq_none_iff]

namespace Pattern

/-- a symbol, as it is spelled in a pattern -/
def symbol (source : String) (c : Char) : Pattern := ⟨anchoredSource source, .symbol c⟩

theorem matchAt?_symbol (source : String) {c : Char} {p q : Place} (h : p.Passes [c] q) :
    ∃ found, (symbol source c).matchAt? p = some (found, q) := by
  have hend : (Expr.symbol c).firstEnd? p = some ((Spot.start p).past c q.rest) := by
    rw [Expr.firstEnd?_symbol, h.rest]
    exact if_pos rfl
  have hplace : ((Spot.start p).past c q.rest).place = q :=
    Place.Passes.unique (p := p) (s := [c]) ⟨h.rest, by simp [Spot.past, Spot.start, Place.past]⟩ h
  rw [← hplace]
  exact ⟨_, matchAt?_eq_some hend⟩

theorem matchAt?_symbol_eq_none {source : String} {c : Char} {p : Place}
    (h : p.rest.head? ≠ some c) : (symbol source c).matchAt? p = none := by
  have hend : (Expr.symbol c).firstEnd? p = none := by
    rw [Expr.firstEnd?_symbol]
    cases hrest : p.rest with
    | nil => rfl
    | cons d rest =>
      rw [hrest] at h
      exact if_neg fun hd => h (congrArg some hd)
  exact matchAt?_eq_none hend

theorem dark_symbol {c : Char} (source : String) (hc : isWhiteSpace c = false) :
    (symbol source c).Dark := by
  intro p hblank
  refine matchAt?_symbol_eq_none fun hhead => ?_
  rw [hhead, Option.any_some, hc] at hblank
  cases hblank

end Pattern

section
variable {source : String} {c : Char} {p q : Place}

/-- a symbol is read after white space -/
theorem lookAlong?_symbol (hc : isWhiteSpace c = false) (h : p.Takes [c] q) :
    ∃ found, lookAlong? [.blank] (.symbol source c) p.rest p = some (found, q) := by
  obtain ⟨found, hfound⟩ := Pattern.matchAt?_symbol source (h.sweep hc)
  exact ⟨found, (lookAlong?_blank (Pattern.dark_symbol source hc) p).trans hfound⟩

theorem lookAlong?_symbol_eq_none (hc : isWhiteSpace c = false) (h : p.next? ≠ some c) :
    lookAlong? [.blank] (.symbol source c) p.rest p = none :=
  (lookAlong?_blank (Pattern.dark_symbol source hc) p).trans (Pattern.matchAt?_symbol_eq_none h)

end

end Packrat
