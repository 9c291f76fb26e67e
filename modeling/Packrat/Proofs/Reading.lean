import Packrat.Proofs.Ends
import Packrat.Reader

/-!
# Reading goes forward in one text

* `p ≤ q`              the place `q` stands in the text of `p`, there or further on;
* `Place.le_ext`       at or after a place, the offset determines the place;
* `Expr.le_of_mem_ends`   a match ends at or after the place where it began;
* `Reader.look?_eq_some`   what a reader does when a pattern matches;
* `Reader.raise`       the same reader after matches elsewhere.
-/

namespace Packrat

/-! ## the order of places -/

/-- `q` stands in the text of `p`, there or further on -/
instance : LE Place where
  le p q := ∃ passed, p.rest = passed ++ q.rest ∧ q.offset = p.offset + byteLength passed

namespace Place

theorem le_refl (p : Place) : p ≤ p := ⟨[], by simp, by simp⟩

theorem le_trans {p q r : Place} (hpq : p ≤ q) (hqr : q ≤ r) : p ≤ r := by
  obtain ⟨s, hs, hs'⟩ := hpq
  obtain ⟨t, ht, ht'⟩ := hqr
  refine ⟨s ++ t, ?_, ?_⟩
  · rw [hs, ht, List.append_assoc]
  · rw [ht', hs', byteLength_append]
    omega

theorem offset_le {p q : Place} (h : p ≤ q) : p.offset ≤ q.offset := by
  obtain ⟨s, -, hs⟩ := h
  omega

theorem le_past (p : Place) {c : Char} {rest : List Char} (h : p.rest = c :: rest) :
    p ≤ p.past c rest := by
  refine ⟨[c], h, ?_⟩
  show p.offset + c.utf8Size = p.offset + byteLength [c]
  simp

/-- the offset at which the text ends -/
def limit (p : Place) : Nat := p.offset + byteLength p.rest

theorem limit_eq {p q : Place} (h : p ≤ q) : q.limit = p.limit := by
  obtain ⟨s, hs, hs'⟩ := h
  show q.offset + byteLength q.rest = p.offset + byteLength p.rest
  rw [hs, hs', byteLength_append]
  omega

theorem offset_le_limit {p q : Place} (h : p ≤ q) : q.offset ≤ p.limit := by
  rw [← limit_eq h]
  exact Nat.le_add_right _ _

/-- **At or after a place, the offset determines the place.** -/
theorem le_ext {p q r : Place} (hq : p ≤ q) (hr : p ≤ r) (h : q.offset = r.offset) : q = r := by
  obtain ⟨s, hs, hs'⟩ := hq
  obtain ⟨t, ht, ht'⟩ := hr
  have hst : s = t := by
    rw [← takeBytes_append s q.rest, ← hs, ht, show byteLength s = byteLength t by omega,
      takeBytes_append]
  subst hst
  have hrest : q.rest = r.rest := List.append_cancel_left (hs.symm.trans ht)
  cases q
  cases r
  cases h
  cases hrest
  rfl

end Place

/-! ## patterns -/

namespace Expr

/-- **A match ends at or after the place where it began.** -/
theorem le_of_mem_ends {e : Expr} {s t : Spot} (h : t ∈ e.ends s) : s.place ≤ t.place :=
  keeps_of_mem_ends (K := fun s t => s.place ≤ t.place) (fun s => Place.le_refl s.place)
    Place.le_trans (fun s _ _ => s.place.le_past) (fun _ _ _ h => h) e s h

theorem le_of_mem_ends_plus {greedy : Bool} {e : Expr} {s t : Spot}
    (h : t ∈ (Expr.plus greedy e).ends s) : ∃ u ∈ e.ends s, u.place ≤ t.place :=
  exists_of_mem_ends_plus (K := fun s t => s.place ≤ t.place) (fun s => Place.le_refl s.place)
    Place.le_trans (fun s _ _ => s.place.le_past) (fun _ _ _ h => h) h

theorem le_firstEnd? {e : Expr} {p : Place} {t : Spot} (h : e.firstEnd? p = some t) :
    p ≤ t.place := by
  rw [firstEnd?_eq] at h
  exact le_of_mem_ends (List.mem_of_mem_head? h)

end Expr

theorem Pattern.le_endAt? {pattern : Pattern} {p q : Place} (h : pattern.endAt? p = some q) :
    p ≤ q := by
  rw [endAt?, Option.map_eq_some_iff] at h
  obtain ⟨s, hs, rfl⟩ := h
  exact Expr.le_firstEnd? hs

theorem Pattern.le_matchAt? {pattern : Pattern} {p q : Place} {m : Match}
    (h : pattern.matchAt? p = some (m, q)) : p ≤ q := by
  rw [matchAt?] at h
  split at h
  · cases h
  · next s hs =>
    cases h
    exact Expr.le_firstEnd? hs

/-! ## readers -/

theorem le_skipOne? {ignorables : List Pattern} {p q : Place}
    (h : skipOne? ignorables p = some q) : p ≤ q := by
  obtain ⟨pattern, -, hq⟩ := List.exists_of_findSome?_eq_some h
  split at hq
  · cases hq
  · next r hr =>
    split at hq
    · cases hq
      exact Pattern.le_endAt? hr
    · cases hq

theorem le_lookAlong? {ignorables : List Pattern} {pattern : Pattern} (left : List Char)
    {p q : Place} {m : Match} (h : lookAlong? ignorables pattern left p = some (m, q)) : p ≤ q := by
  induction left generalizing p with
  | nil => exact Pattern.le_matchAt? h
  | cons c left ih =>
    rw [lookAlong?] at h
    split at h
    · next found hfound =>
      cases h
      exact Pattern.le_matchAt? hfound
    · split at h
      · cases h
      · next r hr => exact Place.le_trans (le_skipOne? hr) (ih h)

namespace Reader
variable {ignorables : List Pattern} {pattern : Pattern}

/-- a match moves the reader on and may raise the furthest offset; whether there is one depends on
the place alone -/
theorem look?_eq_some {r r' : Reader} {m : Match} :
    r.look? ignorables pattern = some (m, r') ↔
      ∃ q, lookAlong? ignorables pattern r.place.rest r.place = some (m, q) ∧
        r' = ⟨q, max r.furthest q.offset⟩ := by
  rw [look?]
  constructor
  · intro h
    split at h
    · cases h
    · next found q hq =>
      cases h
      exact ⟨q, hq, rfl⟩
  · rintro ⟨q, hq, rfl⟩
    rw [hq]

theorem look?_eq_none {r : Reader} :
    r.look? ignorables pattern = none ↔
      lookAlong? ignorables pattern r.place.rest r.place = none := by
  rw [look?]
  split
  · next h => simp [h]
  · next h => simp [h]

theorem le_look? {r r' : Reader} {m : Match} (h : r.look? ignorables pattern = some (m, r')) :
    r.place ≤ r'.place := by
  obtain ⟨q, hq, rfl⟩ := look?_eq_some.mp h
  exact le_lookAlong? _ hq

/-- the reader after some other match has reached the offset `e` -/
def raise (e : Nat) (r : Reader) : Reader := ⟨r.place, max r.furthest e⟩

theorem raise_eq_self {e : Nat} {r : Reader} (h : e ≤ r.furthest) : r.raise e = r := by
  cases r
  rw [raise, Nat.max_eq_left h]

end Reader

end Packrat
