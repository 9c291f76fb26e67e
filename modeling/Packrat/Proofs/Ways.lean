import Mathlib.Data.List.Basic
import Packrat.Pattern.Matching

/-!
# All ways to match

Matching tries one way after the other and hands along what to do instead.  Here the ways are listed
in the order in which they are tried, and a match is the first of them.

* `prefer`               the ways to go on and the one to stop;
* `Expr.ways`            where the matches of an expression end, preferred ones first, with the choices
                         made there since the last character;
* `Expr.run_eq_ways`     matching tries them in order;
* `Expr.keeps_of_mem_ways`   what each move of matching keeps, a match keeps;
* `Expr.mem_trail_of_mem_ways`   an expression makes no choices outside itself;
* `Expr.flatMap_ways`    it does not matter what address an expression has, as long as the same choices
                         have been made in it.
-/

namespace Packrat

/-! ## one more round, or no more -/

section
variable {β γ : Type}

/-- the ways to go on and the one to stop, in the order in which they are tried -/
def prefer (greedy : Bool) (more : List γ) (stop : γ) : List γ :=
  if greedy then more ++ [stop] else stop :: more

@[simp] theorem prefer_true (more : List γ) (stop : γ) : prefer true more stop = more ++ [stop] := rfl

@[simp] theorem prefer_false (more : List γ) (stop : γ) : prefer false more stop = stop :: more := rfl

theorem mem_prefer {greedy : Bool} {more : List γ} {stop x : γ} :
    x ∈ prefer greedy more stop ↔ x = stop ∨ x ∈ more := by
  cases greedy with
  | true => rw [prefer_true, List.mem_append, List.mem_singleton, or_comm]
  | false => rw [prefer_false, List.mem_cons]

theorem map_prefer (f : β → γ) (greedy : Bool) (more : List β) (stop : β) :
    (prefer greedy more stop).map f = prefer greedy (more.map f) (f stop) := by
  cases greedy with
  | true => rw [prefer_true, List.map_append, prefer_true]; rfl
  | false => rw [prefer_false, List.map_cons, prefer_false]

theorem flatMap_prefer (f : β → List γ) (greedy : Bool) (more : List β) (stop : β) :
    (prefer greedy more stop).flatMap f =
      if greedy then more.flatMap f ++ f stop else f stop ++ more.flatMap f := by
  cases greedy with
  | true => rw [prefer_true, List.flatMap_append, List.flatMap_singleton]; rfl
  | false => rw [prefer_false, List.flatMap_cons]; rfl

theorem findSome?_append_orElse (n : γ → Option β) (xs ys : List γ) (other : Unit → Option β) :
    ((xs ++ ys).findSome? n).orElse other =
      (xs.findSome? n).orElse fun _ => (ys.findSome? n).orElse other := by
  rw [List.findSome?_append]
  cases xs.findSome? n <;> simp

theorem findSome?_prefer_orElse (n : γ → Option β) (greedy : Bool) (more : List γ) (stop : γ)
    (other : Unit → Option β) :
    ((prefer greedy more stop).findSome? n).orElse other =
      if greedy then (more.findSome? n).orElse fun _ => (n stop).orElse other
      else (n stop).orElse fun _ => (more.findSome? n).orElse other := by
  cases greedy with
  | true =>
    rw [prefer_true, findSome?_append_orElse, List.findSome?_singleton]
    rfl
  | false =>
    rw [prefer_false, List.findSome?_cons]
    cases n stop <;> rfl

theorem findSome?_flatMap {δ : Type} (n : δ → Option β) (f : γ → List δ) (xs : List γ) :
    (xs.flatMap f).findSome? n = xs.findSome? fun x => (f x).findSome? n := by
  induction xs with
  | nil => rfl
  | cons x xs ih =>
    rw [List.flatMap_cons, List.findSome?_append, ih, List.findSome?_cons]
    cases (f x).findSome? n <;> rfl

end

namespace Expr

/-! ## ways in the order in which they are tried -/

/-- the ways to go on from the choice of the repetition at `a` whether there is one more round -/
def roundsWays (greedy : Bool) (a : Address)
    (round : Spot → List Address → List (Spot × List Address)) :
    List Char → Spot → List Address → List (Spot × List Address)
  | [], s, trail => if trail.contains a then [] else [(s, a :: trail)]
  | _ :: left, s, trail =>
    if trail.contains a then []
    else
      prefer greedy
        ((round s (a :: trail)).flatMap fun w => roundsWays greedy a round left w.1 w.2)
        (s, a :: trail)

/-- where the matches from `s` end, preferred ones first, with the choices made there since the last
character -/
def ways : Expr → Address → Spot → List Address → List (Spot × List Address)
  | .empty, _, s, trail => [(s, trail)]
  | .set cs anyCase, _, s, _ =>
    if s.place.rest.head?.any (cs.mem anyCase) then
      [(s.past (s.place.rest.headD ' ') s.place.rest.tail, [])]
    else []
  | .assert cond, _, s, trail =>
    if cond.holds s.before s.place.rest.head? then [(s, trail)] else []
  | .seq e f, a, s, trail =>
    (e.ways (false :: a) s trail).flatMap fun w => f.ways (true :: a) w.1 w.2
  | .alt e f, a, s, trail =>
    if trail.contains a then []
    else e.ways (false :: a) s (a :: trail) ++ f.ways (true :: a) s (a :: trail)
  | .group index e, a, s, trail =>
    (e.ways (false :: a) s trail).map fun w => (w.1.close index s.place, w.2)
  | .opt greedy e, a, s, trail =>
    if trail.contains a then []
    else prefer greedy (e.ways (false :: a) s (a :: trail)) (s, a :: trail)
  | .plus greedy e, a, s, trail =>
    (e.ways (false :: a) s trail).flatMap fun w =>
      roundsWays greedy a (e.ways (false :: a)) s.place.rest w.1 w.2
  | .star greedy e, a, s, trail =>
    roundsWays greedy a (e.ways (false :: a)) s.place.rest s trail

section
variable {β : Type}

/-- what is matched next, as something to be done with each way in turn -/
def andThen (n : Spot × List Address → Option β) (t : Spot) (trail : List Address)
    (other : Unit → Option β) : Option β :=
  (n (t, trail)).orElse other

theorem rounds_eq_ways {greedy : Bool} {a : Address} {e : Expr}
    (he : ∀ (n : Spot × List Address → Option β) s trail other,
      e.run (false :: a) s trail (andThen n) other =
        ((e.ways (false :: a) s trail).findSome? n).orElse other)
    (n : Spot × List Address → Option β) (left : List Char) (s : Spot) (trail : List Address)
    (other : Unit → Option β) :
    rounds greedy a (e.run (false :: a)) (andThen n) left s trail other =
      ((roundsWays greedy a (e.ways (false :: a)) left s trail).findSome? n).orElse other := by
  induction left generalizing s trail other with
  | nil =>
    rw [rounds, roundsWays]
    split
    · rfl
    · rw [andThen, List.findSome?_singleton]
  | cons c left ih =>
    let f : Spot × List Address → List (Spot × List Address) := fun w =>
      roundsWays greedy a (e.ways (false :: a)) left w.1 w.2
    have hnext : rounds greedy a (e.run (false :: a)) (andThen n) left =
        andThen fun w => (f w).findSome? n := by
      funext t trail other
      exact ih t trail other
    have hround : ∀ other, e.run (false :: a) s (a :: trail) (andThen fun w => (f w).findSome? n) other =
        (((e.ways (false :: a) s (a :: trail)).flatMap f).findSome? n).orElse other := by
      intro other
      rw [he, findSome?_flatMap]
    rw [rounds, roundsWays, hnext, hround, hround]
    split
    · rfl
    · exact (findSome?_prefer_orElse n greedy _ _ other).symm

/-- **Matching tries the ways in order**, and what is to be done instead comes after all of them. -/
theorem run_eq_ways (e : Expr) (n : Spot × List Address → Option β) (a : Address) (s : Spot)
    (trail : List Address) (other : Unit → Option β) :
    e.run a s trail (andThen n) other = ((e.ways a s trail).findSome? n).orElse other := by
  induction e generalizing n a s trail other with
  | empty => rw [run, ways, andThen, List.findSome?_singleton]
  | set cs anyCase =>
    rw [run, ways]
    cases hrest : s.place.rest with
    | nil => rfl
    | cons c rest =>
      by_cases hc : cs.mem anyCase c = true
      · simp [hc, andThen]
      · simp [hc]
  | assert cond =>
    rw [run, ways]
    split <;> simp [andThen]
  | seq e f ihe ihf =>
    have hnext : (fun t trail other => f.run (true :: a) t trail (andThen n) other) =
        andThen fun w => (f.ways (true :: a) w.1 w.2).findSome? n := by
      funext t trail other
      rw [ihf, andThen]
    rw [run, ways, hnext, ihe, findSome?_flatMap]
  | alt e f ihe ihf =>
    rw [run, ways]
    split
    · rfl
    · rw [ihe, findSome?_append_orElse, ihf]
  | group index e ih =>
    have hnext : (fun t trail other => andThen n (t.close index s.place) trail other) =
        andThen fun w => n (w.1.close index s.place, w.2) := rfl
    rw [run, ways, hnext, ih, List.findSome?_map]
    rfl
  | opt greedy e ih =>
    rw [run, ways, ih, ih]
    split
    · rfl
    · exact (findSome?_prefer_orElse n greedy _ _ other).symm
  | plus greedy e ih =>
    let f : Spot × List Address → List (Spot × List Address) := fun w =>
      roundsWays greedy a (e.ways (false :: a)) s.place.rest w.1 w.2
    have hnext : rounds greedy a (e.run (false :: a)) (andThen n) s.place.rest =
        andThen fun w => (f w).findSome? n := by
      funext t trail other
      exact rounds_eq_ways (fun n => ih n (false :: a)) n s.place.rest t trail other
    rw [run, hnext, ih, ways, findSome?_flatMap]
  | star greedy e ih =>
    rw [run, ways]
    exact rounds_eq_ways (fun n => ih n (false :: a)) n s.place.rest s trail other

end

/-! ## what matches keep -/

section
variable {K : Spot × List Address → Spot × List Address → Prop} {b : Address}

theorem keeps_of_mem_rounds (htrans : ∀ {u v w}, K u v → K v w → K u w) {greedy : Bool}
    {a : Address} (hchoose : ∀ s trail, K (s, trail) (s, a :: trail))
    {round : Spot → List Address → List (Spot × List Address)}
    (hround : ∀ s trail, ∀ w ∈ round s trail, K (s, trail) w) (left : List Char) (s : Spot)
    (trail : List Address) {w : Spot × List Address}
    (h : w ∈ roundsWays greedy a round left s trail) : K (s, trail) w := by
  induction left generalizing s trail with
  | nil =>
    rw [roundsWays] at h
    split at h
    · cases h
    · rw [List.mem_singleton.mp h]
      exact hchoose s trail
  | cons c left ih =>
    rw [roundsWays] at h
    split at h
    · cases h
    · rcases mem_prefer.mp h with rfl | hmore
      · exact hchoose s trail
      · obtain ⟨v, hv, hw⟩ := List.mem_flatMap.mp hmore
        exact htrans (hchoose s trail) (htrans (hround s _ v hv) (ih v.1 v.2 hw))

/-- **What passing a character, closing a group and making a choice keep, a match keeps.** -/
theorem keeps_of_mem_ways (hrefl : ∀ w, K w w) (htrans : ∀ {u v w}, K u v → K v w → K u w)
    (hpast : ∀ s trail c rest, s.place.rest = c :: rest → K (s, trail) (s.past c rest, []))
    (hclose : ∀ v s trail index, K v (s, trail) → K v (s.close index v.1.place, trail))
    (hchoose : ∀ s trail x, K (s, trail) (s, (x ++ b) :: trail)) (e : Expr) (x : Address) (s : Spot)
    (trail : List Address) {w : Spot × List Address} (h : w ∈ e.ways (x ++ b) s trail) :
    K (s, trail) w := by
  induction e generalizing x s trail w with
  | empty =>
    rw [List.mem_singleton.mp h]
    exact hrefl _
  | set cs anyCase =>
    rw [ways] at h
    cases hrest : s.place.rest with
    | nil =>
      rw [hrest] at h
      cases h
    | cons c rest =>
      rw [hrest] at h
      split at h
      · rw [List.mem_singleton.mp h]
        exact hpast s trail c rest hrest
      · cases h
  | assert cond =>
    rw [ways] at h
    split at h
    · rw [List.mem_singleton.mp h]
      exact hrefl _
    · cases h
  | seq e f ihe ihf =>
    obtain ⟨v, hv, hw⟩ := List.mem_flatMap.mp h
    exact htrans (ihe (false :: x) s trail hv) (ihf (true :: x) v.1 v.2 hw)
  | alt e f ihe ihf =>
    rw [ways] at h
    split at h
    · cases h
    · refine htrans (hchoose s trail x) ?_
      rcases List.mem_append.mp h with h | h
      · exact ihe (false :: x) s _ h
      · exact ihf (true :: x) s _ h
  | group index e ih =>
    obtain ⟨v, hv, rfl⟩ := List.mem_map.mp h
    exact hclose (s, trail) v.1 v.2 index (ih (false :: x) s trail hv)
  | opt greedy e ih =>
    rw [ways] at h
    split at h
    · cases h
    · rcases mem_prefer.mp h with rfl | hmem
      · exact hchoose s trail x
      · exact htrans (hchoose s trail x) (ih (false :: x) s _ hmem)
  | plus greedy e ih =>
    obtain ⟨v, hv, hw⟩ := List.mem_flatMap.mp h
    exact htrans (ih (false :: x) s trail hv) (keeps_of_mem_rounds (K := K) htrans
      (fun s trail => hchoose s trail x) (fun s trail w => ih (false :: x) s trail) _ v.1 v.2 hw)
  | star greedy e ih =>
    exact keeps_of_mem_rounds (K := K) htrans (fun s trail => hchoose s trail x)
      (fun s trail w => ih (false :: x) s trail) _ s trail h

end

/-- choices are made only inside an expression -/
theorem mem_trail_of_mem_ways {e : Expr} {a : Address} {s : Spot} {trail : List Address}
    {w : Spot × List Address} (h : w ∈ e.ways a s trail) : ∀ y ∈ w.2, y ∈ trail ∨ a <:+ y := by
  refine keeps_of_mem_ways (K := fun v w => ∀ y ∈ w.2, y ∈ v.2 ∨ a <:+ y) (b := a)
    (fun w y hy => .inl hy) ?_ ?_ (fun v s trail index h => h) ?_ e [] s trail h
  · intro u v w huv hvw y hy
    rcases hvw y hy with hy | hy
    · exact huv y hy
    · exact .inr hy
  · intro s trail c rest _ y hy
    cases hy
  · intro s trail x y hy
    rcases List.mem_cons.mp hy with rfl | hy
    · exact .inr (List.suffix_append x a)
    · exact .inl hy

/-! ## the address does not matter -/

/-- the same choices have been made under `a` as, in the other trail, under `b` -/
def Alike (a b : Address) (trail trail' : List Address) : Prop :=
  ∀ x, x ++ a ∈ trail ↔ x ++ b ∈ trail'

section
variable {a b : Address} {trail trail' : List Address}

theorem Alike.contains (h : Alike a b trail trail') (x : Address) :
    trail.contains (x ++ a) = trail'.contains (x ++ b) := by
  rw [Bool.eq_iff_iff, List.contains_iff_mem, List.contains_iff_mem]
  exact h x

theorem Alike.choose (h : Alike a b trail trail') (x : Address) :
    Alike a b ((x ++ a) :: trail) ((x ++ b) :: trail') := by
  intro y
  rw [List.mem_cons, List.mem_cons, List.append_left_inj, List.append_left_inj, h y]

theorem Alike.refl (trail : List Address) : Alike a a trail trail := fun _ => .rfl

theorem alike_of_forall (h : ∀ x, x ++ a ∉ trail) : Alike a b trail [] :=
  fun x => ⟨fun hx => absurd hx (h x), fun hx => nomatch hx⟩

variable {γ : Type} {n m : Spot × List Address → List γ}

theorem flatMap_rounds {greedy : Bool} {x : Address}
    {round round' : Spot → List Address → List (Spot × List Address)}
    (hround : ∀ (n m : Spot × List Address → List γ) s trail trail',
      (∀ s trail trail', Alike a b trail trail' → n (s, trail) = m (s, trail')) →
      Alike a b trail trail' → (round s trail).flatMap n = (round' s trail').flatMap m)
    (hn : ∀ s trail trail', Alike a b trail trail' → n (s, trail) = m (s, trail'))
    (left : List Char) (s : Spot) (h : Alike a b trail trail') :
    (roundsWays greedy (x ++ a) round left s trail).flatMap n =
      (roundsWays greedy (x ++ b) round' left s trail').flatMap m := by
  induction left generalizing s trail trail' with
  | nil =>
    rw [roundsWays, roundsWays, h.contains x]
    split
    · rfl
    · rw [List.flatMap_singleton, List.flatMap_singleton, hn s _ _ (h.choose x)]
  | cons c left ih =>
    have hmore := hround (fun w => (roundsWays greedy (x ++ a) round left w.1 w.2).flatMap n)
      (fun w => (roundsWays greedy (x ++ b) round' left w.1 w.2).flatMap m) s _ _
      (fun t trail trail' h => ih t h) (h.choose x)
    have hstop := hn s _ _ (h.choose x)
    rw [roundsWays, roundsWays, h.contains x]
    split
    · rfl
    · rw [flatMap_prefer, flatMap_prefer, List.flatMap_assoc, List.flatMap_assoc, hmore, hstop]

/-- **It does not matter where an expression stands**, as long as the same choices have been made in it. -/
theorem flatMap_ways (e : Expr) (x : Address)
    (hn : ∀ s trail trail', Alike a b trail trail' → n (s, trail) = m (s, trail')) (s : Spot)
    (h : Alike a b trail trail') :
    (e.ways (x ++ a) s trail).flatMap n = (e.ways (x ++ b) s trail').flatMap m := by
  induction e generalizing n m x s trail trail' with
  | empty =>
    rw [ways, ways, List.flatMap_singleton, List.flatMap_singleton, hn s _ _ h]
  | set cs anyCase =>
    rw [ways, ways]
    split
    · rw [List.flatMap_singleton, List.flatMap_singleton]
      exact hn _ _ _ fun x => ⟨fun hx => (nomatch hx), fun hx => (nomatch hx)⟩
    · rfl
  | assert cond =>
    rw [ways, ways]
    split
    · rw [List.flatMap_singleton, List.flatMap_singleton, hn s _ _ h]
    · rfl
  | seq e f ihe ihf =>
    rw [ways, ways, List.flatMap_assoc, List.flatMap_assoc]
    exact ihe (false :: x) (fun s trail trail' h => ihf (true :: x) hn s h) s h
  | alt e f ihe ihf =>
    rw [ways, ways, h.contains x]
    split
    · rfl
    · rw [List.flatMap_append, List.flatMap_append]
      exact congrArg₂ _ (ihe (false :: x) hn s (h.choose x)) (ihf (true :: x) hn s (h.choose x))
  | group index e ih =>
    rw [ways, ways, List.flatMap_map, List.flatMap_map]
    exact ih (false :: x) (fun t trail trail' h => hn (t.close index s.place) _ _ h) s h
  | opt greedy e ih =>
    have hmore := ih (false :: x) hn s (h.choose x)
    have hstop := hn s _ _ (h.choose x)
    rw [ways, ways, h.contains x]
    split
    · rfl
    · rw [flatMap_prefer, flatMap_prefer, hstop]
      exact congrArg (fun ys => if greedy = true then ys ++ _ else _ ++ ys) hmore
  | plus greedy e ih =>
    rw [ways, ways, List.flatMap_assoc, List.flatMap_assoc]
    exact ih (false :: x) (fun t trail trail' h => flatMap_rounds
      (fun n m s trail trail' hn h => ih (false :: x) hn s h) hn s.place.rest t h) s h
  | star greedy e ih =>
    exact flatMap_rounds (fun n m s trail trail' hn h => ih (false :: x) hn s h) hn s.place.rest s h

end

end Expr

end Packrat
