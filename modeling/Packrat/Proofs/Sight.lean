import Mathlib.Data.List.Infix
import Packrat.Proofs.Lexing
import Packrat.Proofs.Outcomes
import Packrat.Proofs.Spans

/-!
# Looking along the chain of skips

A pattern is searched for from the left: of its matches in the text that is left, the one that
begins first counts, and of those that begin there the preferred one.  A reader takes it only if it
begins at the place itself, and otherwise skips and searches again.

* `Expr.search?`     where the leftmost match in the text that is left begins and ends;
* `Pattern.hit?`     that match, if it begins at the place itself; one that begins later is a miss;
* `hop?`             the end of the first ignorable pattern's hit that is not empty;
* `chain`            the places that are come to by hopping on, by their number;
* `Climbs`           the chain goes on from place to place up to a last one;
* `Reader.Sights`    a match is the leftmost one at the first place of the chain that has any;
* `look?_at_first_sight`   a reader sights just what it reads, and stays where it is otherwise.
-/

namespace Packrat

/-! ## searching -/

/-- the spots of the text that is left, from the left -/
def Place.starts (p : Place) : List Spot := p.rest.inits.map (Spot.start p).after

/-- the leftmost match in the text that is left, by the spots where it begins and ends: of the
matches that begin first the preferred one -/
def Expr.search? (e : Expr) (p : Place) : Option (Spot × Spot) :=
  p.starts.findSome? fun s => (e.ends s).head?.map fun t => (s, t)

theorem Place.starts_eq (p : Place) :
    ∃ later, p.starts = Spot.start p :: later ∧ ∀ s ∈ later, p.offset < s.place.offset := by
  rw [starts]
  cases hrest : p.rest with
  | nil => exact ⟨[], rfl, nofun⟩
  | cons c rest =>
    rw [List.inits_cons, List.map_cons]
    refine ⟨_, rfl, fun s hs => ?_⟩
    rw [List.map_map] at hs
    obtain ⟨passed, -, rfl⟩ := List.mem_map.mp hs
    have hpos := c.utf8Size_pos
    show p.offset < ((Spot.start p).after (c :: passed)).place.offset
    rw [Spot.after_offset, byteLength_cons]
    show p.offset < p.offset + _
    omega

section
variable {e : Expr} {p : Place} {s t : Spot}

theorem Expr.search?_inv (h : e.search? p = some (s, t)) :
    s ∈ p.starts ∧ (e.ends s).head? = some t := by
  obtain ⟨s', hs', hfound⟩ := List.exists_of_findSome?_eq_some h
  obtain ⟨t', ht', heq⟩ := Option.map_eq_some_iff.mp hfound
  obtain ⟨rfl, rfl⟩ := Prod.mk.inj heq
  exact ⟨hs', ht'⟩

/-- the leftmost match begins at the place itself just if there is a match from there, and then it
is the preferred one -/
theorem Expr.search?_here : e.search? p = some (Spot.start p, t) ↔ e.firstEnd? p = some t := by
  rw [firstEnd?_eq]
  constructor
  · intro h
    exact (search?_inv h).2
  · intro h
    obtain ⟨later, hstarts, -⟩ := p.starts_eq
    rw [search?, hstarts, List.findSome?_cons, h]
    rfl

theorem Expr.eq_start_of_search? (h : e.search? p = some (s, t))
    (hoffset : s.place.offset = p.offset) : s = Spot.start p := by
  obtain ⟨later, hstarts, hlater⟩ := p.starts_eq
  have hs := (search?_inv h).1
  rw [hstarts] at hs
  rcases List.mem_cons.mp hs with hstart | hmem
  · exact hstart
  · have hlt := hlater s hmem
    omega

end

namespace Pattern
variable {pattern : Pattern} {p q : Place} {found : Match}

/-- the leftmost match in the text that is left, if it begins at the place itself -/
def hit? (pattern : Pattern) (p : Place) : Option (Match × Place) :=
  match pattern.expr.search? p with
  | none => none
  | some (s, t) =>
    if s.place.offset = p.offset then some (Pattern.found pattern.expr p t, t.place) else none

/-- **Matching at a place is searching from it**, with a match that begins later as a miss. -/
theorem matchAt?_eq_hit? (pattern : Pattern) (p : Place) : pattern.matchAt? p = pattern.hit? p := by
  rw [hit?]
  cases hfirst : pattern.expr.firstEnd? p with
  | some t =>
    rw [matchAt?_eq_some hfirst, Expr.search?_here.mpr hfirst]
    exact (if_pos rfl).symm
  | none =>
    rw [matchAt?_eq_none hfirst]
    cases hsearch : pattern.expr.search? p with
    | none => rfl
    | some found =>
      obtain ⟨s, t⟩ := found
      -- a match that began here would have an end that is preferred
      refine (if_neg fun hoffset => ?_).symm
      rw [Expr.eq_start_of_search? hsearch hoffset, Expr.search?_here, hfirst] at hsearch
      cases hsearch

theorem endAt?_eq_hit? (pattern : Pattern) (p : Place) :
    pattern.endAt? p = (pattern.hit? p).map Prod.snd := by
  rw [← matchAt?_eq_hit?, endAt?, matchAt?]
  cases pattern.expr.firstEnd? p <;> rfl

/-- there is a hit just where some match begins -/
theorem hit?_eq_none : pattern.hit? p = none ↔ pattern.expr.ends (Spot.start p) = [] := by
  rw [← matchAt?_eq_hit?, matchAt?, Expr.firstEnd?_eq]
  cases pattern.expr.ends (Spot.start p) <;> simp

theorem hit?_inv (h : pattern.hit? p = some (found, q)) :
    ∃ t, pattern.expr.search? p = some (Spot.start p, t) ∧
      found = Pattern.found pattern.expr p t ∧ q = t.place := by
  rw [← matchAt?_eq_hit?, matchAt?] at h
  split at h
  · cases h
  · next t ht =>
    cases h
    exact ⟨t, Expr.search?_here.mpr ht, rfl, rfl⟩

theorem passes_of_hit? (h : pattern.hit? p = some (found, q)) : p.Passes found.text.toList q := by
  rw [← matchAt?_eq_hit?] at h
  obtain ⟨chunk, hchunk⟩ := Place.exists_passes_of_le (le_matchAt? h)
  rw [(matchAt?_span h).1, hchunk.textTo, String.toList_ofList]
  exact hchunk

end Pattern

/-! ## hopping on -/

/-- the end of the first ignorable pattern's hit that is not empty, in the order given -/
def hop? (ignorables : List Pattern) (p : Place) : Option Place :=
  ignorables.findSome? fun pattern =>
    match pattern.hit? p with
    | none => none
    | some (found, q) => if found.text = "" then none else some q

/-- the places that are come to by hopping on from `p`, by their number -/
def chain (ignorables : List Pattern) (p : Place) : Nat → Option Place
  | 0 => some p
  | i + 1 => (chain ignorables p i).bind (hop? ignorables)

theorem skipOne?_eq_hop? (ignorables : List Pattern) (p : Place) :
    skipOne? ignorables p = hop? ignorables p := by
  rw [skipOne?, hop?]
  congr 1
  funext pattern
  rw [Pattern.endAt?_eq_hit?]
  cases hhit : pattern.hit? p with
  | none => rfl
  | some x =>
    obtain ⟨found, q⟩ := x
    -- what is hit is empty just if it passes no bytes
    have hpasses := Pattern.passes_of_hit? hhit
    have hempty : found.text = "" ↔ ¬ p.offset < q.offset := by
      rw [hpasses.offset, ← String.toList_eq_nil_iff]
      cases found.text.toList with
      | nil => simp
      | cons c cs =>
        have hpos := c.utf8Size_pos
        rw [byteLength_cons]
        exact ⟨fun hnil => absurd hnil (List.cons_ne_nil c cs), fun hnot => absurd (by omega) hnot⟩
    show (if p.offset < q.offset then some q else none) = if found.text = "" then none else some q
    by_cases hlt : p.offset < q.offset
    · rw [if_pos hlt, if_neg (mt hempty.mp (not_not.mpr hlt))]
    · rw [if_neg hlt, if_pos (hempty.mpr hlt)]

section
variable {ignorables : List Pattern} {p q r stop : Place} {i j : Nat}

theorem chain_succ (ignorables : List Pattern) (p : Place) (i : Nat) :
    chain ignorables p (i + 1) = (hop? ignorables p).bind fun q => chain ignorables q i := by
  induction i with
  | zero => simp [chain]
  | succ i ih =>
    rw [chain, ih, Option.bind_assoc]
    rfl

theorem chain_eq_none (h : chain ignorables p i = none) (hij : i ≤ j) :
    chain ignorables p j = none := by
  induction hij with
  | refl => exact h
  | step _ ih => rw [chain, ih, Option.bind_none]

theorem le_chain (h : chain ignorables p i = some q) : p ≤ q := by
  induction i generalizing q with
  | zero =>
    cases h
    exact Place.le_refl p
  | succ i ih =>
    obtain ⟨r, hr, hhop⟩ := Option.bind_eq_some_iff.mp h
    rw [← skipOne?_eq_hop?] at hhop
    exact Place.le_trans (ih hr) (le_skipOne? hhop)

/-- each place of the chain lies behind those before it -/
theorem chain_lt (hi : chain ignorables p i = some q) (hj : chain ignorables p j = some r)
    (hij : i < j) : q.offset < r.offset := by
  induction hij generalizing r with
  | refl =>
    rw [chain, hi, Option.bind_some, ← skipOne?_eq_hop?] at hj
    exact skipOne?_lt hj
  | step _ ih =>
    obtain ⟨r', hr', hhop⟩ := Option.bind_eq_some_iff.mp hj
    rw [← skipOne?_eq_hop?] at hhop
    exact Nat.lt_trans (ih hr') (skipOne?_lt hhop)

/-- the places that are skipped to are those of the chain -/
theorem Skips.chain (h : Skips ignorables p q) : ∃ i, chain ignorables p i = some q := by
  induction h with
  | refl => exact ⟨0, rfl⟩
  | tail _ hskip ih =>
    obtain ⟨i, hi⟩ := ih
    refine ⟨i + 1, ?_⟩
    rw [Packrat.chain, hi, Option.bind_some, ← skipOne?_eq_hop?]
    exact hskip

/-- the chain from `p` climbs from place to place, up to `stop` and no further -/
structure Climbs (ignorables : List Pattern) (p stop : Place) : Prop where
  climbs : ∀ {i j q r}, chain ignorables p i = some q → chain ignorables p j = some r → i < j →
    q.offset < r.offset
  ends : ∃ last, chain ignorables p last = some stop ∧
    ∀ i, (chain ignorables p i).isSome = true ↔ i ≤ last

theorem SkipsTo.climbs (h : SkipsTo ignorables p stop) : Climbs ignorables p stop := by
  obtain ⟨last, hlast⟩ := h.skips.chain
  have hnone : chain ignorables p (last + 1) = none := by
    rw [chain, hlast, Option.bind_some, ← skipOne?_eq_hop?]
    exact h.ends
  refine ⟨chain_lt, last, hlast, fun i => ⟨fun hi => ?_, fun hle => ?_⟩⟩
  · by_contra hlt
    rw [chain_eq_none hnone (by omega)] at hi
    cases hi
  · by_contra hi
    rw [chain_eq_none (Option.not_isSome_iff_eq_none.mp hi) hle] at hlast
    cases hlast

end

/-! ## looking -/

section
variable {ignorables : List Pattern} {pattern : Pattern} {p : Place}

/-- what is found is a hit at a place of the chain, and there is none at the places before -/
theorem chain_of_lookAlong? {x : Match × Place} (left : List Char)
    (h : lookAlong? ignorables pattern left p = some x) :
    ∃ i q, chain ignorables p i = some q ∧ pattern.hit? q = some x ∧
      ∀ j < i, ∀ r, chain ignorables p j = some r → pattern.hit? r = none := by
  induction left generalizing p with
  | nil =>
    rw [lookAlong?, Pattern.matchAt?_eq_hit?] at h
    exact ⟨0, p, rfl, h, fun j hj => absurd hj (Nat.not_lt_zero j)⟩
  | cons c left ih =>
    rw [lookAlong?, Pattern.matchAt?_eq_hit?, skipOne?_eq_hop?] at h
    cases hhit : pattern.hit? p with
    | some y =>
      rw [hhit] at h
      exact ⟨0, p, rfl, hhit.trans h, fun j hj => absurd hj (Nat.not_lt_zero j)⟩
    | none =>
      rw [hhit] at h
      cases hhop : hop? ignorables p with
      | none =>
        rw [hhop] at h
        cases h
      | some p' =>
        rw [hhop] at h
        obtain ⟨i, q, hq, hx, hbefore⟩ := ih h
        refine ⟨i + 1, q, ?_, hx, fun j hj r hr => ?_⟩
        · rw [chain_succ, hhop]
          exact hq
        · cases j with
          | zero =>
            cases hr
            exact hhit
          | succ j =>
            rw [chain_succ, hhop] at hr
            exact hbefore j (by omega) r hr

/-- if nothing is found, there is no hit at any place of the chain -/
theorem hit?_of_lookAlong? (left : List Char) (hleft : p.rest.length ≤ left.length)
    (h : lookAlong? ignorables pattern left p = none) {i : Nat} {q : Place}
    (hq : chain ignorables p i = some q) : pattern.hit? q = none := by
  induction left generalizing p i with
  | nil =>
    rw [lookAlong?, Pattern.matchAt?_eq_hit?] at h
    cases i with
    | zero =>
      cases hq
      exact h
    | succ i =>
      -- nothing is left to be skipped
      rw [chain_succ, ← skipOne?_eq_hop?] at hq
      obtain ⟨p', hskip, -⟩ := Option.bind_eq_some_iff.mp hq
      have hshorter := length_lt_of_skipOne? hskip
      rw [List.length_nil] at hleft
      omega
  | cons c left ih =>
    rw [lookAlong?, Pattern.matchAt?_eq_hit?] at h
    cases hhit : pattern.hit? p with
    | some x =>
      rw [hhit] at h
      cases h
    | none =>
      rw [hhit] at h
      cases i with
      | zero =>
        cases hq
        exact hhit
      | succ i =>
        rw [chain_succ, ← skipOne?_eq_hop?] at hq
        obtain ⟨p', hskip, hq'⟩ := Option.bind_eq_some_iff.mp hq
        rw [hskip] at h
        have hshorter := length_lt_of_skipOne? hskip
        rw [List.length_cons] at hleft
        exact ih (by omega) h hq'

/-- the reader `r` comes upon the match at the place `p`, the first of its chain that has one, and
goes on as `r'` after it; the match ends at the spot `t` -/
structure Reader.Sights (text : String) (ignorables : List Pattern) (pattern : Pattern) (r : Reader)
    (found : Match) (r' : Reader) (i : Nat) (p : Place) (t : Spot) : Prop where
  here : chain ignorables r.place i = some p
  first : ∀ j < i, ∀ q, chain ignorables r.place j = some q →
    pattern.expr.ends (Spot.start q) = []
  leftmost : pattern.expr.search? p = some (Spot.start p, t)
  found_eq : found = Pattern.found pattern.expr p t
  span : found.span = ⟨p.offset, p.offset + found.text.utf8ByteSize⟩
  covers : found.span.Covers text.toList found.text.toList
  offset : r'.offset = found.span.stop
  furthest : r'.furthest = max r.furthest found.span.stop

theorem Reader.sights_of_look? {text : String} {r r' : Reader} {found : Match}
    (hr : Place.first text.toList ≤ r.place) (h : r.look? ignorables pattern = some (found, r')) :
    ∃ i p t, r.Sights text ignorables pattern found r' i p t := by
  obtain ⟨q, hlook, rfl⟩ := look?_eq_some.mp h
  obtain ⟨i, p, hchain, hhit, hbefore⟩ := chain_of_lookAlong? _ hlook
  obtain ⟨t, hsearch, hfound, hq⟩ := Pattern.hit?_inv hhit
  have hpasses := Pattern.passes_of_hit? hhit
  have hspan : found.span = p.spanTo q := by rw [hfound, hq]; rfl
  have hsize : q.offset = p.offset + found.text.utf8ByteSize := by
    rw [hpasses.offset, ← utf8ByteSize_ofList, String.ofList_toList]
  refine ⟨i, p, t, hchain, fun j hj r hr => ?_, hsearch, hfound, ?_, ?_, ?_, ?_⟩
  · exact Pattern.hit?_eq_none.mp (hbefore j hj r hr)
  · rw [hspan, Place.spanTo, hsize]
  · rw [hspan]
    exact Span.covers_spanTo (Place.le_trans hr (le_chain hchain)) hpasses
  · rw [hspan]
    rfl
  · rw [hspan]
    rfl

theorem Reader.look?_isSome_iff (r : Reader) :
    (r.look? ignorables pattern).isSome = true ↔
      ∃ i p, chain ignorables r.place i = some p ∧ pattern.expr.ends (Spot.start p) ≠ [] := by
  rw [Option.isSome_iff_ne_none, Ne, look?_eq_none]
  constructor
  · intro hlook
    obtain ⟨x, hx⟩ := Option.ne_none_iff_exists'.mp hlook
    obtain ⟨i, p, hchain, hhit, -⟩ := chain_of_lookAlong? _ hx
    refine ⟨i, p, hchain, fun hends => ?_⟩
    rw [Pattern.hit?_eq_none.mpr hends] at hhit
    cases hhit
  · rintro ⟨i, p, hchain, hends⟩ hlook
    exact hends (Pattern.hit?_eq_none.mp (hit?_of_lookAlong? _ (Nat.le_refl _) hlook hchain))

end

/-- a leaf leaves the reader after what it reads, and where it is if it reads nothing -/
theorem Machine.readLeaf_reader {τ : Type} (ignorables : List Pattern) (pattern : Pattern)
    (role : Role τ) (m : Machine τ) :
    (m.readLeaf ignorables pattern role).reader =
      ((m.reader.look? ignorables pattern).map Prod.snd).getD m.reader := by
  rw [readLeaf_eq]
  show _ = ((m.ledger.reader.look? ignorables pattern).map Prod.snd).getD m.reader
  rw [Ledger.readLeaf]
  cases m.ledger.reader.look? ignorables pattern <;> rfl

/-- **A reader finds the first opportunity along the chain of skips.**  The chain climbs to the place
where skipping ends, and only ignorable text is left just if that is the end of the text.  There is
a match just if the pattern matches at some place of the chain; it is the leftmost match at the
first such place, and the reader goes on after it.  Without a match it stays as it is. -/
theorem look?_at_first_sight (text : String) (ignorables : List Pattern) (pattern : Pattern)
    (r : Reader) (hr : Place.first text.toList ≤ r.place) :
    (∃ stop, Climbs ignorables r.place stop ∧ stop.offset = r.significantOffset ignorables ∧
      (r.atEnd ignorables = true ↔ stop.offset = text.utf8ByteSize)) ∧
    ((r.look? ignorables pattern).isSome = true ↔
      ∃ i p, chain ignorables r.place i = some p ∧ pattern.expr.ends (Spot.start p) ≠ []) ∧
    (∀ found r', r.look? ignorables pattern = some (found, r') →
      ∃ i p t, r.Sights text ignorables pattern found r' i p t) ∧
    ∀ {τ : Type} (role : Role τ) (m : Machine τ), m.reader = r →
      (m.readLeaf ignorables pattern role).reader =
        ((r.look? ignorables pattern).map Prod.snd).getD r := by
  refine ⟨⟨skipAll ignorables r.place, (skipsTo_skipAll ignorables r.place).climbs, rfl,
    r.atEnd_iff ignorables hr⟩, r.look?_isSome_iff, fun found r' => Reader.sights_of_look? hr,
    fun role m hm => ?_⟩
  rw [Machine.readLeaf_reader, hm]

/-! ## marks between words -/

namespace Marks

/-- a mark that may stand between words; the pattern may match anywhere in a text -/
def mark : Pattern := ⟨"中", .set (.one '中') false⟩

def seven : Pattern := ⟨"7", .set (.one '7') false⟩

def text : String := "中 中7"

/-- a reader at the start of the text, after a match has come as far as the offset 4 -/
def reader : Reader := ⟨Place.first text.toList, 4⟩

/-- the chain takes the marks and the blank between them in turn, although at the blank the pattern of
marks finds the one after it; the digit is found behind all of them, at the fourth place -/
theorem look?_at_first_sight_of_seven :
    (List.range 5).map (fun i => (chain [mark, .blank] reader.place i).map Place.offset) =
      [some 0, some 3, some 4, some 7, none] ∧
    ((mark.expr.search? ⟨3, " 中7".toList⟩).map fun x => x.1.place.offset) = some 4 ∧
    (∃ stop, Climbs [mark, .blank] reader.place stop ∧ stop.offset = 7) ∧
    ∃ i p t, reader.Sights text [mark, .blank] seven ⟨"7", ⟨7, 8⟩, []⟩ ⟨⟨8, []⟩, 8⟩ i p t := by
  have hlook : reader.look? [mark, .blank] seven = some (⟨"7", ⟨7, 8⟩, []⟩, ⟨⟨8, []⟩, 8⟩) := rfl
  have hoffset : reader.significantOffset [mark, .blank] = 7 := by decide +kernel
  obtain ⟨⟨stop, hclimbs, hstop, -⟩, -, hsights, -⟩ :=
    look?_at_first_sight text [mark, .blank] seven reader (Place.le_refl _)
  exact ⟨by decide +kernel, by decide +kernel, ⟨stop, hclimbs, hstop.trans hoffset⟩,
    hsights _ _ hlook⟩

end Marks

end Packrat
