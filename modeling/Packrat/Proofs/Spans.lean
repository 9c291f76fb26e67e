import Packrat.Proofs.Captures
import Packrat.Proofs.Lexing

/-!
# Spans are faithful and in order

* `Spot.Holds`          all groups that are closed lie between a place and the present one;
* `Pattern.captured_infix`   what is captured of a match stands inside it;
* `InOrder`             spans follow one another between two offsets;
* `Graph.ReadsAlong`    texts are read one after the other, by leaves of the graph, between two places;
* `Derived.readsAlong`  so are those of every derivation;
* `Span.Covers`         what stands in a text at a span;
* `Capture.Faithful`    a capture is what was read at its span, or stands in it;
* `spans_in_order`      the captures in the tree of a match are faithful, and their spans in order.
-/

namespace Packrat

/-! ## groups -/

/-- the groups that are closed lie one by one between `p` and the place of the spot -/
structure Spot.Holds (p : Place) (s : Spot) : Prop where
  here : p ≤ s.place
  group : ∀ {index start stop}, (index, start, stop) ∈ s.groups →
    p ≤ start ∧ start ≤ stop ∧ stop ≤ s.place

theorem Spot.Holds.past {p : Place} {s : Spot} (h : s.Holds p) {c : Char} {rest : List Char}
    (hrest : s.place.rest = c :: rest) : (s.past c rest).Holds p := by
  have hle : s.place ≤ (s.past c rest).place := s.place.le_past hrest
  refine ⟨Place.le_trans h.here hle, fun hgroup => ?_⟩
  obtain ⟨hstart, horder, hstop⟩ := h.group hgroup
  exact ⟨hstart, horder, Place.le_trans hstop hle⟩

theorem Spot.Holds.close {p q : Place} {s : Spot} (h : s.Holds p) (hp : p ≤ q) (hq : q ≤ s.place)
    (index : Nat) : (s.close index q).Holds p := by
  refine ⟨h.here, fun hgroup => ?_⟩
  rcases List.mem_cons.mp hgroup with heq | hgroup
  · cases heq
    exact ⟨hp, hq, Place.le_refl _⟩
  · exact h.group (List.mem_filter.mp hgroup).1

theorem Expr.holds_of_firstEnd? {e : Expr} {p : Place} {t : Spot} (h : e.firstEnd? p = some t) :
    t.Holds p := by
  rw [firstEnd?_eq] at h
  have hmem : t ∈ e.ends (Spot.start p) := List.mem_of_mem_head? h
  -- a group is opened where its part of the match begins, and that is at or after `p`
  have hkeeps : (Spot.start p).place ≤ t.place ∧ ((Spot.start p).Holds p → t.Holds p) := by
    refine keeps_of_mem_ends (K := fun s t => s.place ≤ t.place ∧ (s.Holds p → t.Holds p))
      (fun s => ⟨Place.le_refl _, id⟩)
      (fun hst htu => ⟨Place.le_trans hst.1 htu.1, fun hs => htu.2 (hst.2 hs)⟩) ?_ ?_ e _ hmem
    · intro s c rest hrest
      exact ⟨s.place.le_past hrest, fun hs => hs.past hrest⟩
    · intro s t index hst
      exact ⟨hst.1, fun hs => (hst.2 hs).close hs.here hst.1 index⟩
  refine hkeeps.2 ⟨Place.le_refl p, fun hgroup => ?_⟩
  cases hgroup

namespace Place

theorem exists_passes_of_le {p q : Place} (h : p ≤ q) : ∃ chunk, p.Passes chunk q := by
  obtain ⟨chunk, hrest, hoffset⟩ := h
  exact ⟨chunk, hrest, hoffset⟩

/-- what stands between two places stands in what is between two others around them -/
theorem textTo_infix {p a b q : Place} {inside : List Char} (h : p.Passes inside q) (hpa : p ≤ a)
    (hab : a ≤ b) (hbq : b ≤ q) : (a.textTo b).toList <:+: inside := by
  obtain ⟨u, hu⟩ := exists_passes_of_le hpa
  obtain ⟨v, hv⟩ := exists_passes_of_le hab
  obtain ⟨w, hw⟩ := exists_passes_of_le hbq
  have hall : p.Passes (u ++ v ++ w) q := (hu.trans hv).trans hw
  have hinside : inside = u ++ v ++ w := List.append_cancel_right (h.rest.symm.trans hall.rest)
  rw [hinside, hv.textTo, String.toList_ofList]
  exact ⟨u, w, rfl⟩

end Place

namespace Pattern
variable {pattern : Pattern} {p q : Place} {found : Match}

theorem matchAt?_span (h : pattern.matchAt? p = some (found, q)) :
    found.text = p.textTo q ∧ found.span = p.spanTo q := by
  rw [matchAt?] at h
  split at h
  · cases h
  · cases h
    exact ⟨rfl, rfl⟩

/-- **What is captured of a match stands inside it**, and is all of it if no group took part. -/
theorem captured_infix (h : pattern.matchAt? p = some (found, q)) {inside : List Char}
    (hinside : p.Passes inside q) :
    found.captured.toList <:+: inside ∧
      ((∀ group ∈ found.groups, group = none) → found.captured.toList = inside) := by
  have htext : found.text.toList = inside := by
    rw [(matchAt?_span h).1, hinside.textTo, String.toList_ofList]
  rw [Match.captured]
  cases hgroup : found.groups.findSome? id with
  | none =>
    rw [Option.getD_none, htext]
    exact ⟨List.infix_refl _, fun _ => rfl⟩
  | some text =>
    obtain ⟨group, hmem, heq⟩ := List.exists_of_findSome?_eq_some hgroup
    change group = some text at heq
    subst heq
    refine ⟨?_, fun hnone => ?_⟩
    · rw [matchAt?] at h
      split at h
      · cases h
      · next s hs =>
        cases h
        -- the text of a group is that between the two places kept for it
        obtain ⟨i, -, hi⟩ := List.mem_map.mp hmem
        rw [Spot.groupText] at hi
        split at hi
        · cases hi
        · next index a b hfind =>
          cases hi
          obtain ⟨hpa, hab, hbq⟩ :=
            (Expr.holds_of_firstEnd? hs).group (List.mem_of_find?_eq_some hfind)
          exact Place.textTo_infix hinside hpa hab hbq
    · cases hnone _ hmem

end Pattern

/-- a match is made here or after ignorable text -/
theorem exists_matchAt?_of_lookAlong? {ignorables : List Pattern} {pattern : Pattern}
    (left : List Char) {p q : Place} {found : Match}
    (h : lookAlong? ignorables pattern left p = some (found, q)) :
    ∃ p', p ≤ p' ∧ pattern.matchAt? p' = some (found, q) := by
  induction left generalizing p with
  | nil => exact ⟨p, Place.le_refl p, h⟩
  | cons c left ih =>
    rw [lookAlong?] at h
    split at h
    · next hfound =>
      cases h
      exact ⟨p, Place.le_refl p, hfound⟩
    · split at h
      · cases h
      · next r hskip =>
        obtain ⟨p', hle, hmatch⟩ := ih h
        exact ⟨p', Place.le_trans (le_skipOne? hskip) hle, hmatch⟩

/-! ## spans in order -/

/-- the spans follow one another from one offset to the other: none goes back, none overlaps another,
and none reaches out -/
def InOrder (first : Nat) : List Span → Nat → Prop
  | [], last => first ≤ last
  | span :: spans, last => first ≤ span.start ∧ span.start ≤ span.stop ∧ InOrder span.stop spans last

theorem InOrder.mono {first first' last : Nat} {spans : List Span} (hle : first' ≤ first)
    (h : InOrder first spans last) : InOrder first' spans last := by
  cases spans with
  | nil => exact Nat.le_trans hle h
  | cons span spans => exact ⟨Nat.le_trans hle h.1, h.2⟩

/-- **Spans that are left out do not disturb the others.** -/
theorem InOrder.sublist {spans spans' : List Span} (hsub : spans'.Sublist spans)
    {first last : Nat} (h : InOrder first spans last) : InOrder first spans' last := by
  induction hsub generalizing first with
  | slnil => exact h
  | cons span _ ih =>
    obtain ⟨hstart, horder, hrest⟩ := h
    exact (ih hrest).mono (Nat.le_trans hstart horder)
  | cons_cons span _ ih => exact ⟨h.1, h.2.1, ih h.2.2⟩

section
variable {τ : Type} {g : Graph τ} {ignorables : List Pattern}

/-- the text was read by a leaf of the graph, from one place to the other -/
def Graph.HasRead (g : Graph τ) (x : Reading τ) (p q : Place) : Prop :=
  ∃ (node : Nat) (source : String) (pattern : Pattern),
    g.nodes[node]? = some (.leaf source (some pattern) x.role) ∧
      pattern.matchAt? p = some (x.found, q)

/-- the texts were read by leaves of the graph one after the other, between the two places -/
def Graph.ReadsAlong (g : Graph τ) (p : Place) : List (Reading τ) → Place → Prop
  | [], q => p ≤ q
  | x :: xs, q => ∃ start stop, p ≤ start ∧ g.HasRead x start stop ∧ ReadsAlong g stop xs q

theorem Graph.ReadsAlong.mono {p p' q : Place} {xs : List (Reading τ)} (hle : p' ≤ p)
    (h : g.ReadsAlong p xs q) : g.ReadsAlong p' xs q := by
  cases xs with
  | nil => exact Place.le_trans hle h
  | cons x xs =>
    obtain ⟨start, stop, hstart, hrest⟩ := h
    exact ⟨start, stop, Place.le_trans hle hstart, hrest⟩

theorem Graph.ReadsAlong.append {p q r : Place} {xs ys : List (Reading τ)}
    (hx : g.ReadsAlong p xs q) (hy : g.ReadsAlong q ys r) : g.ReadsAlong p (xs ++ ys) r := by
  induction xs generalizing p with
  | nil => exact hy.mono hx
  | cons x xs ih =>
    obtain ⟨start, stop, hstart, hread, hrest⟩ := hx
    exact ⟨start, stop, hstart, hread, ih hrest⟩

theorem Graph.ReadsAlong.inOrder {p q : Place} {xs : List (Reading τ)} (h : g.ReadsAlong p xs q) :
    InOrder p.offset (xs.map (·.found.span)) q.offset := by
  induction xs generalizing p with
  | nil => exact Place.offset_le h
  | cons x xs ih =>
    obtain ⟨start, stop, hstart, ⟨node, source, pattern, -, hmatch⟩, hrest⟩ := h
    have hspan := (Pattern.matchAt?_span hmatch).2
    rw [List.map_cons, InOrder, hspan]
    exact ⟨Place.offset_le hstart, Place.offset_le (Pattern.le_matchAt? hmatch), ih hrest⟩

/-- each of the texts was read at or after the first place -/
theorem Graph.ReadsAlong.exists_of_mem {p q : Place} {xs : List (Reading τ)}
    (h : g.ReadsAlong p xs q) {x : Reading τ} (hx : x ∈ xs) :
    ∃ start stop, p ≤ start ∧ g.HasRead x start stop := by
  induction xs generalizing p with
  | nil => cases hx
  | cons y ys ih =>
    obtain ⟨start, stop, hstart, hread, hrest⟩ := h
    rcases List.mem_cons.mp hx with rfl | hx
    · exact ⟨start, stop, hstart, hread⟩
    · obtain ⟨node, source, pattern, -, hmatch⟩ := hread
      have hle := Place.le_trans hstart (Pattern.le_matchAt? hmatch)
      obtain ⟨start', stop', hstart', hread'⟩ := ih hrest hx
      exact ⟨start', stop', Place.le_trans hle hstart', hread'⟩

mutual

/-- **What is read for a match is read between its ends, one text after the other.** -/
theorem Derived.readsAlong {call : Call} {readings : List (Reading τ)} {p q : Place}
    {r : Fragment τ} : Derived g ignorables call readings p q r → g.ReadsAlong p readings q
  | .leaf hnode hlook => by
    obtain ⟨start, hstart, hmatch⟩ := exists_matchAt?_of_lookAlong? _ hlook
    exact ⟨start, _, hstart, ⟨_, _, _, hnode, hmatch⟩, Place.le_refl _⟩
  | .sequence _ h => h.readsAlong
  | .repetition _ h _ => h.readsAlong
  | .alternative _ _ h => h.readsAlong
  | .optional _ h => h.readsAlong
  | .nothing _ => Place.le_refl _
  | .reference _ h => h.readsAlong
  | .rule _ h => h.readsAlong

theorem Gathered.readsAlong {parts : List Nat} {readings : List (Reading τ)} {p q : Place}
    {trees : List (Tree τ)} :
    Gathered g ignorables parts readings p q trees → g.ReadsAlong p readings q
  | .nil => Place.le_refl _
  | .snoc hparts hpart => hparts.readsAlong.append hpart.readsAlong

end

/-! ## what leaves show -/

/-- what a leaf shows of what it has read, also if its parent leaves it out -/
def Reading.shown? : Reading τ → Option (Capture τ)
  | ⟨.hide, found⟩ => some ⟨none, found.text, found.span⟩
  | ⟨.capture tag, found⟩ => some ⟨some tag, found.captured, found.span⟩
  | _ => none

theorem Reading.shown?_of_capture? {x : Reading τ} {c : Capture τ} (h : x.capture? = some c) :
    x.shown? = some c := by
  obtain ⟨role, found⟩ := x
  cases role with
  | capture tag => exact h
  | _ => cases h

theorem Reading.span_of_shown? {x : Reading τ} {c : Capture τ} (h : x.shown? = some c) :
    c.span = x.found.span := by
  obtain ⟨role, found⟩ := x
  cases role with
  | hide =>
    cases h
    rfl
  | capture tag =>
    cases h
    rfl
  | _ => cases h

theorem filterMap_sublist_filterMap {α β : Type} {f f' : α → Option β}
    (h : ∀ x b, f x = some b → f' x = some b) (xs : List α) :
    (xs.filterMap f).Sublist (xs.filterMap f') := by
  induction xs with
  | nil => exact List.Sublist.slnil
  | cons x xs ih =>
    cases hx : f x with
    | none =>
      rw [List.filterMap_cons_none hx]
      cases hx' : f' x with
      | none =>
        rw [List.filterMap_cons_none hx']
        exact ih
      | some b =>
        rw [List.filterMap_cons_some hx']
        exact ih.cons b
    | some b =>
      rw [List.filterMap_cons_some hx, List.filterMap_cons_some (h x b hx)]
      exact ih.cons_cons b

/-- the captures in the tree of a match are among what was shown on the way, in the same order -/
theorem Derived.captures_shown (hg : g.Plain) {call : Call} {readings : List (Reading τ)}
    {p q : Place} {r : Fragment τ} (h : Derived g ignorables call readings p q r) :
    r.tree.captures.Sublist (readings.filterMap Reading.shown?) := by
  rcases h.sound hg with ⟨t, rfl⟩ | rfl | ⟨found, hfound, rfl⟩
  · have hread := h.carries hg hg.carries_sublist
    rw [Fragment.captures_kept] at hread
    exact hread.trans (filterMap_sublist_filterMap (fun _ _ => Reading.shown?_of_capture?) readings)
  · rw [show (Fragment.nothing : Fragment τ).tree.captures = [] from Tree.captures_branch none []]
    exact List.nil_sublist _
  · rw [show (Role.hide.apply found : Fragment τ).tree.captures =
      [⟨none, found.text, found.span⟩] from Tree.captures_leaf _ _ _]
    exact List.singleton_sublist.mpr (List.mem_filterMap.mpr ⟨_, hfound, rfl⟩)

theorem Derived.spans_inOrder (hg : g.Plain) {call : Call} {readings : List (Reading τ)}
    {p q : Place} {r : Fragment τ} (h : Derived g ignorables call readings p q r) :
    InOrder p.offset (r.tree.captures.map Capture.span) q.offset := by
  refine h.readsAlong.inOrder.sublist (((h.captures_shown hg).map Capture.span).trans ?_)
  rw [List.map_filterMap, ← List.filterMap_eq_map]
  refine filterMap_sublist_filterMap (fun x span hspan => ?_) readings
  obtain ⟨c, hc, rfl⟩ := Option.map_eq_some_iff.mp hspan
  exact congrArg some (Reading.span_of_shown? hc).symm

/-! ## faithful captures -/

/-- `inside` is what stands in the text at the span -/
def Span.Covers (text : List Char) (span : Span) (inside : List Char) : Prop :=
  ∃ before after, text = before ++ inside ++ after ∧ span.start = byteLength before ∧
    span.stop = byteLength (before ++ inside)

theorem Span.covers_spanTo {text inside : List Char} {p q : Place} (hp : Place.first text ≤ p)
    (h : p.Passes inside q) : (p.spanTo q).Covers text inside := by
  obtain ⟨before, hbefore⟩ := Place.exists_passes_of_le hp
  have hall := hbefore.trans h
  refine ⟨before, q.rest, hall.rest, ?_, ?_⟩
  · exact hbefore.offset.trans (Nat.zero_add _)
  · exact hall.offset.trans (Nat.zero_add _)

theorem Span.Covers.unique {text inside inside' : List Char} {span : Span}
    (h : span.Covers text inside) (h' : span.Covers text inside') : inside = inside' := by
  obtain ⟨before, after, htext, hstart, hstop⟩ := h
  obtain ⟨before', after', htext', hstart', hstop'⟩ := h'
  have hbefore : before = before' := by
    rw [List.append_assoc] at htext htext'
    rw [← takeBytes_append before (inside ++ after), ← htext, ← hstart, hstart', htext',
      takeBytes_append]
  have hthrough : before ++ inside = before' ++ inside' := by
    rw [← takeBytes_append (before ++ inside) after, ← htext, ← hstop, hstop', htext',
      takeBytes_append]
  rw [hbefore] at hthrough
  exact List.append_cancel_left hthrough

/-- one of these readings shows the capture.  Its text stands in the text at its span; and it is all that
stands there, if no group took part in the match. -/
def Capture.Faithful (text : List Char) (readings : List (Reading τ)) (c : Capture τ) : Prop :=
  ∃ inside, c.span.Covers text inside ∧ c.text.toList <:+: inside ∧
    (∃ x ∈ readings, x.shown? = some c) ∧
    ∀ x ∈ readings, x.shown? = some c → (∀ group ∈ x.found.groups, group = none) →
      c.text.toList = inside

/-- what a leaf has read and shows stands in the text at its span -/
theorem Graph.HasRead.covers {text : List Char} {x : Reading τ} {p q : Place} {c : Capture τ}
    (h : g.HasRead x p q) (hp : Place.first text ≤ p) (hc : x.shown? = some c) :
    ∃ inside, c.span.Covers text inside ∧ c.text.toList <:+: inside ∧
      ((∀ group ∈ x.found.groups, group = none) → c.text.toList = inside) := by
  obtain ⟨node, source, pattern, -, hmatch⟩ := h
  obtain ⟨inside, hinside⟩ := Place.exists_passes_of_le (Pattern.le_matchAt? hmatch)
  obtain ⟨htext, hspan⟩ := Pattern.matchAt?_span hmatch
  have hcovers : c.span.Covers text inside := by
    rw [Reading.span_of_shown? hc, hspan]
    exact Span.covers_spanTo hp hinside
  refine ⟨inside, hcovers, ?_⟩
  obtain ⟨role, found⟩ := x
  cases role with
  | hide =>
    cases hc
    have hall : found.text.toList = inside := by
      rw [htext, hinside.textTo, String.toList_ofList]
    rw [hall]
    exact ⟨List.infix_refl _, fun _ => rfl⟩
  | capture tag =>
    cases hc
    exact Pattern.captured_infix hmatch hinside
  | keyword tag => cases hc
  | custom f => cases hc

theorem Graph.ReadsAlong.faithful {text : List Char} {readings : List (Reading τ)} {p q : Place}
    (h : g.ReadsAlong p readings q) (hp : Place.first text ≤ p) {c : Capture τ}
    (hc : c ∈ readings.filterMap Reading.shown?) : c.Faithful text readings := by
  have hcovers : ∀ x ∈ readings, x.shown? = some c → ∃ inside, c.span.Covers text inside ∧
      c.text.toList <:+: inside ∧
      ((∀ group ∈ x.found.groups, group = none) → c.text.toList = inside) := by
    intro x hx hshown
    obtain ⟨start, stop, hstart, hread⟩ := h.exists_of_mem hx
    exact hread.covers (Place.le_trans hp hstart) hshown
  obtain ⟨x, hx, hshown⟩ := List.mem_filterMap.mp hc
  obtain ⟨inside, hinside, hinfix, -⟩ := hcovers x hx hshown
  refine ⟨inside, hinside, hinfix, ⟨x, hx, hshown⟩, fun y hy hshown' hgroups => ?_⟩
  obtain ⟨inside', hinside', -, hall⟩ := hcovers y hy hshown'
  rw [hinside.unique hinside']
  exact hall hgroups

/-- **Spans are faithful and in order.**  When a parser or a rule of a grammar without functions of its
own matches, with a memory or without one and after any other requests, the spans of the captures in
its tree follow one another, in the order of the walk, from the offset where it began to the offset
where it ended; and each capture is what was read at its span. -/
theorem spans_in_order (grammar : Grammar τ) (hplain : grammar.plain = true)
    (ignorables : List Pattern) (text : String) (reader : Reader)
    (htext : Place.first text.toList ≤ reader.place) (memoize : Bool) {limit : Nat}
    {calls : List Call} {replies : List (Reply τ)} {m : Machine τ}
    (hsession : (Machine.fresh reader memoize).session? grammar.compile ignorables limit calls =
      some (replies, m)) {call : Call} {r : Fragment τ} {m' : Machine τ}
    (hserve : m.serve? grammar.compile ignorables limit call = some (some r, m')) :
    InOrder m.reader.offset (r.tree.captures.map Capture.span) m'.reader.offset ∧
      ∃ j, (Machine.fresh reader memoize).journal? grammar.compile ignorables limit {}
          (calls ++ [call]) = some (m', j) ∧
        ∀ c ∈ r.tree.captures, c.Faithful text.toList j.latest := by
  have hg := Grammar.compile_plain hplain
  obtain ⟨j, hj, hstart, hderived⟩ := Machine.derived_of_serve? hsession hserve
  refine ⟨hderived.spans_inOrder hg, j, hj, fun c hc => ?_⟩
  exact hderived.readsAlong.faithful (Place.le_trans htext hstart)
    ((hderived.captures_shown hg).subset hc)

end

/-! ## a quoted word -/

namespace Quoted

/-- `pair ::= name value`, where of a value in quotes only what stands between them is kept; blanks are
ignored -/
def grammar : Grammar Unit :=
  (Grammar.empty.ignore " +").declare
    (({ name := "pair" } : Rule.Draft Unit).capture "[a-z]+" () |>.capture "'([a-z]*)'" () |>.tag ())

/-- two pairs -/
def text : String := "ab 'cd' e 'f'"

/-- a machine with a memory at the beginning of the text -/
def machine : Machine Unit := .fresh (Reader.first text.toList) true

/-- after the first pair, the second is found at the offset 8; the span of its value takes in the quotes,
and its text does not -/
theorem spans_in_order_of_pair :
    ∃ replies m r m' j,
      machine.session? grammar.compile grammar.compile.ignorables 100 [.rule 0] = some (replies, m) ∧
      m.serve? grammar.compile grammar.compile.ignorables 100 (.rule 0) = some (some r, m') ∧
      m.reader.offset = 7 ∧
      r.tree.captures = [⟨some (), "e", ⟨8, 9⟩⟩, ⟨some (), "f", ⟨10, 13⟩⟩] ∧
      InOrder m.reader.offset (r.tree.captures.map Capture.span) m'.reader.offset ∧
      machine.journal? grammar.compile grammar.compile.ignorables 100 {} [.rule 0, .rule 0] =
        some (m', j) ∧
      ∀ c ∈ r.tree.captures, c.Faithful text.toList j.latest := by
  have hplain : grammar.plain = true := by decide +kernel
  have hview : (machine.session? grammar.compile grammar.compile.ignorables 100 [.rule 0]).map
      (fun x => (x.2.reader.offset,
        (x.2.serve? grammar.compile grammar.compile.ignorables 100 (.rule 0)).map fun y =>
          y.1.map (·.tree.captures))) =
        some (7, some (some [⟨some (), "e", ⟨8, 9⟩⟩, ⟨some (), "f", ⟨10, 13⟩⟩])) := by
    decide +kernel
  obtain ⟨⟨replies, m⟩, hm, hview⟩ := Option.map_eq_some_iff.mp hview
  obtain ⟨hoffset, hview⟩ := Prod.mk.inj hview
  obtain ⟨⟨result, m'⟩, hm', hview⟩ := Option.map_eq_some_iff.mp hview
  obtain ⟨r, hr, hcaptures⟩ := Option.map_eq_some_iff.mp hview
  change result = some r at hr
  subst hr
  obtain ⟨horder, j, hj, hfaithful⟩ := spans_in_order grammar hplain grammar.compile.ignorables text
    (Reader.first text.toList) (Place.le_refl _) true hm hm'
  exact ⟨replies, m, r, m', j, hm, hm', hoffset, hcaptures, horder, hj, hfaithful⟩

end Quoted

end Packrat
