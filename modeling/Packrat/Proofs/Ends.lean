import Packrat.Pattern.Basic
import Packrat.Proofs.Ways

/-!
# Where matches end

* `Expr.ends`            the spots where the matches of an expression end, preferred ones first;
* `Expr.map_ways`        it ends there wherever it stands, if no choice in it has been made before;
* `Expr.ends_seq`, `Expr.ends_alt` and others   so its ends are put together from those of its parts;
* `Expr.Firm`            each match ends with a character, so each round of a repetition is free in all
                         its choices;
* `Expr.keeps_of_mem_ends`   what each move of matching keeps, a match keeps;
* `Expr.firstEnd?_eq`    the preferred match ends at the first of the ends;
* `Spot.after`           the spot after some characters;
* `Expr.head?_ends_many`, `Expr.head?_ends_run`   runs of characters of a set: the longest is tried
                         first;
* `Expr.ends_word`       a word that is spelled out, and what comes after it;
* `Pattern.matchAt?_starting`   the match of a pattern by the first of the ends.
-/

namespace Packrat

/-! ## ends in the order in which they are tried -/

namespace Expr

/-- the spots where the matches from `s` end, preferred ones first -/
def ends (e : Expr) (s : Spot) : List Spot := (e.ways [] s []).map Prod.fst

section
variable {e f : Expr} {s t : Spot} {a : Address} {trail : List Address}

/-- **An expression ends where it would alone**, if no choice in it has been made before. -/
theorem map_ways (h : ∀ x, x ++ a ∉ trail) : (e.ways a s trail).map Prod.fst = e.ends s := by
  have halike := flatMap_ways (n := fun w => [w.1]) (m := fun w => [w.1]) e []
    (fun s trail trail' _ => rfl) s (alike_of_forall (b := []) h)
  rw [← List.map_eq_flatMap, ← List.map_eq_flatMap] at halike
  exact halike

theorem flatMap_fst_ways {γ : Type} (n : Spot → List γ) (h : ∀ x, x ++ a ∉ trail) :
    ((e.ways a s trail).flatMap fun w => n w.1) = (e.ends s).flatMap n := by
  rw [← map_ways h, List.flatMap_map]

theorem append_not_mem_nil (x a : Address) : x ++ a ∉ ([] : List Address) := fun h => nomatch h

/-- the choice of an expression is made in none of its parts -/
theorem append_not_mem_root (x : Address) (second : Bool) : x ++ [second] ∉ [([] : Address)] := by
  simp

/-- the first part makes no choices in the second -/
theorem not_mem_of_mem_ways {w : Spot × List Address} (h : w ∈ e.ways [false] s []) (x : Address) :
    x ++ [true] ∉ w.2 := by
  intro hx
  rcases mem_trail_of_mem_ways h _ hx with hmem | ⟨y, hy⟩
  · cases hmem
  · have hlast := congrArg List.getLast? hy
    simp at hlast

@[simp] theorem ends_empty : Expr.empty.ends s = [s] := rfl

theorem ends_set_eq {cs : CharSet} {anyCase : Bool} : (Expr.set cs anyCase).ends s =
    if s.place.rest.head?.any (cs.mem anyCase) then
      [s.past (s.place.rest.headD ' ') s.place.rest.tail]
    else [] := by
  rw [ends, ways, apply_ite (List.map Prod.fst)]
  rfl

theorem ends_assert {cond : Assertion} : (Expr.assert cond).ends s =
    if cond.holds s.before s.place.rest.head? then [s] else [] := by
  rw [ends, ways, apply_ite (List.map Prod.fst)]
  rfl

theorem ends_seq : (Expr.seq e f).ends s = (e.ends s).flatMap f.ends := by
  rw [ends, ways, List.map_flatMap, ← flatMap_fst_ways f.ends (append_not_mem_nil · [false])]
  exact List.flatMap_congr fun w hw => map_ways (not_mem_of_mem_ways hw)

theorem ends_alt : (Expr.alt e f).ends s = e.ends s ++ f.ends s := by
  rw [ends, ways, List.contains_nil, if_neg Bool.false_ne_true, List.map_append,
    map_ways (append_not_mem_root · false), map_ways (append_not_mem_root · true)]

theorem ends_group {index : Nat} :
    (Expr.group index e).ends s = (e.ends s).map (·.close index s.place) := by
  rw [ends, ways, ← map_ways (append_not_mem_nil · [false]), List.map_map, List.map_map]
  rfl

theorem ends_opt {greedy : Bool} : (Expr.opt greedy e).ends s = prefer greedy (e.ends s) s := by
  rw [ends, ways, List.contains_nil, if_neg Bool.false_ne_true, map_prefer,
    map_ways (append_not_mem_root · false)]

/-! ## repetitions -/

/-- from where a repetition has not chosen yet whether there is one more round, it may stop at once -/
theorem mem_roundsWays {greedy : Bool} {round : Spot → List Address → List (Spot × List Address)}
    (h : a ∉ trail) (left : List Char) (s : Spot) :
    (s, a :: trail) ∈ roundsWays greedy a round left s trail := by
  have hfree : ¬ trail.contains a = true := fun hmem => h (List.contains_iff_mem.mp hmem)
  cases left with
  | nil =>
    rw [roundsWays, if_neg hfree]
    exact List.mem_cons_self
  | cons c left =>
    rw [roundsWays, if_neg hfree]
    exact mem_prefer.mpr (.inl rfl)

/-- no round at all is a way to repeat -/
theorem mem_ends_star (greedy : Bool) (e : Expr) (s : Spot) : s ∈ (Expr.star greedy e).ends s := by
  have hfree : ([] : Address) ∉ [] := fun h => nomatch h
  exact List.mem_map_of_mem (mem_roundsWays hfree s.place.rest s)

/-- and so is a single round -/
theorem mem_ends_plus (greedy : Bool) (h : t ∈ e.ends s) : t ∈ (Expr.plus greedy e).ends s := by
  rw [← map_ways (append_not_mem_nil · [false])] at h
  obtain ⟨w, hw, rfl⟩ := List.mem_map.mp h
  have hfree : [] ∉ w.2 := by
    intro hx
    rcases mem_trail_of_mem_ways hw _ hx with hmem | ⟨y, hy⟩
    · cases hmem
    · simp at hy
  exact List.mem_map.mpr ⟨(w.1, [] :: w.2), List.mem_flatMap.mpr
    ⟨w, hw, mem_roundsWays hfree s.place.rest w.1⟩, rfl⟩

theorem ends_plus_eq_nil (greedy : Bool) (h : e.ends s = []) : (Expr.plus greedy e).ends s = [] := by
  have hways : e.ways [false] s [] = [] :=
    List.map_eq_nil_iff.mp ((map_ways (append_not_mem_nil · [false])).trans h)
  rw [ends, ways, hways]
  rfl

/-- each match ends with a character -/
def Firm (e : Expr) : Prop := ∀ a s trail, ∀ w ∈ e.ways a s trail, w.2 = []

theorem firm_set (cs : CharSet) (anyCase : Bool) : (Expr.set cs anyCase).Firm := by
  intro a s trail w hw
  rw [ways] at hw
  split at hw
  · rw [List.mem_singleton.mp hw]
  · cases hw

theorem Firm.seq (hf : f.Firm) : (Expr.seq e f).Firm := by
  intro a s trail w hw
  obtain ⟨v, -, hw⟩ := List.mem_flatMap.mp hw
  exact hf _ _ _ w hw

theorem Firm.alt (he : e.Firm) (hf : f.Firm) : (Expr.alt e f).Firm := by
  intro a s trail w hw
  rw [ways] at hw
  split at hw
  · cases hw
  · rcases List.mem_append.mp hw with hw | hw
    · exact he _ _ _ w hw
    · exact hf _ _ _ w hw

/-- the ends of any number of rounds -/
def roundsEnds (greedy : Bool) (round : Spot → List Spot) : List Char → Spot → List Spot
  | [], s => [s]
  | _ :: left, s => prefer greedy ((round s).flatMap (roundsEnds greedy round left)) s

theorem Firm.map_rounds (h : e.Firm) (greedy : Bool) (left : List Char) (s : Spot) :
    (roundsWays greedy [] (e.ways [false]) left s []).map Prod.fst =
      roundsEnds greedy e.ends left s := by
  induction left generalizing s with
  | nil => rfl
  | cons c left ih =>
    -- after the last character of a round, no choice has been made
    have hmore : ((e.ways [false] s [[]]).flatMap fun w =>
        roundsWays greedy [] (e.ways [false]) left w.1 w.2).map Prod.fst =
        (e.ends s).flatMap (roundsEnds greedy e.ends left) := by
      rw [List.map_flatMap, ← flatMap_fst_ways _ (append_not_mem_root · false)]
      refine List.flatMap_congr fun w hw => ?_
      rw [h _ _ _ w hw]
      exact ih w.1
    rw [roundsWays, roundsEnds, List.contains_nil, if_neg Bool.false_ne_true, map_prefer, hmore]

/-- **Rounds that end with a character are each as free as the first.** -/
theorem Firm.ends_star (h : e.Firm) (greedy : Bool) (s : Spot) :
    (Expr.star greedy e).ends s = roundsEnds greedy e.ends s.place.rest s :=
  h.map_rounds greedy s.place.rest s

theorem Firm.ends_plus (h : e.Firm) (greedy : Bool) (s : Spot) :
    (Expr.plus greedy e).ends s = (e.ends s).flatMap (roundsEnds greedy e.ends s.place.rest) := by
  rw [ends, ways, List.map_flatMap, ← flatMap_fst_ways _ (append_not_mem_nil · [false])]
  refine List.flatMap_congr fun w hw => ?_
  rw [h _ _ _ w hw]
  exact h.map_rounds greedy s.place.rest w.1

end

/-! ## every end, and the first -/

section
variable {K : Spot → Spot → Prop}

/-- **What passing a character and closing a group keep, a match keeps.** -/
theorem keeps_of_mem_ends (hrefl : ∀ s, K s s) (htrans : ∀ {s t u}, K s t → K t u → K s u)
    (hpast : ∀ s c rest, s.place.rest = c :: rest → K s (s.past c rest))
    (hclose : ∀ s t index, K s t → K s (t.close index s.place)) (e : Expr) (s : Spot) {t : Spot}
    (h : t ∈ e.ends s) : K s t := by
  obtain ⟨w, hw, rfl⟩ := List.mem_map.mp h
  exact keeps_of_mem_ways (K := fun v w => K v.1 w.1) (b := []) (fun w => hrefl w.1) htrans
    (fun s _ => hpast s) (fun v s _ index => hclose v.1 s index) (fun s _ _ => hrefl s) e [] s [] hw

/-- further rounds do so too -/
theorem exists_of_mem_ends_plus (hrefl : ∀ s, K s s) (htrans : ∀ {s t u}, K s t → K t u → K s u)
    (hpast : ∀ s c rest, s.place.rest = c :: rest → K s (s.past c rest))
    (hclose : ∀ s t index, K s t → K s (t.close index s.place)) {greedy : Bool} {e : Expr}
    {s t : Spot} (h : t ∈ (Expr.plus greedy e).ends s) : ∃ u ∈ e.ends s, K u t := by
  obtain ⟨w, hw, rfl⟩ := List.mem_map.mp h
  obtain ⟨v, hv, hw⟩ := List.mem_flatMap.mp hw
  refine ⟨v.1, ?_, ?_⟩
  · rw [← map_ways (append_not_mem_nil · [false])]
    exact List.mem_map_of_mem hv
  · refine keeps_of_mem_rounds (K := fun v w => K v.1 w.1) htrans (fun s _ => hrefl s) ?_ _ _ _ hw
    intro s trail w hw
    exact keeps_of_mem_ways (K := fun v w => K v.1 w.1) (b := [false]) (fun w => hrefl w.1) htrans
      (fun s _ => hpast s) (fun v s _ index => hclose v.1 s index) (fun s _ _ => hrefl s) e [] s trail
      hw

end

/-- **The preferred match ends at the first of all ends.** -/
theorem firstEnd?_eq (e : Expr) (p : Place) : e.firstEnd? p = (e.ends (Spot.start p)).head? := by
  have hfirst : ∀ ws : List (Spot × List Address),
      (ws.findSome? fun w => some w.1) = (ws.map Prod.fst).head? := by
    intro ws
    cases ws <;> rfl
  have hnext : (fun (s : Spot) (_ : List Address) _ => some s) = andThen fun w => some w.1 := rfl
  rw [firstEnd?, hnext, run_eq_ways, hfirst, ends]
  cases ((e.ways [] (Spot.start p) []).map Prod.fst).head? <;> rfl

/-- `(?s:(?:.*?)+b)` takes no more of `ab ba` than `ab` -/
example : ((Expr.seq (.plus true (.star false (.set .any false))) (.set (.one 'b') false)).firstEnd?
    (Place.first "ab ba".toList)).map (fun s => s.place.offset) = some 2 := by
  decide

/-- at the start of a match, there is nothing before -/
theorem ends_textStart (e : Expr) (p : Place) :
    (Expr.seq (.assert .textStart) e).ends (Spot.start p) = e.ends (Spot.start p) := by
  simp [ends_seq, ends_assert, Spot.start, Assertion.holds]

end Expr

/-! ## runs of characters -/

namespace Spot

/-- the spot after these characters -/
def after (s : Spot) (cs : List Char) : Spot := cs.foldl (fun s c => s.past c s.place.rest.tail) s

@[simp] theorem after_nil (s : Spot) : s.after [] = s := rfl

theorem after_cons (s : Spot) (c : Char) (cs : List Char) :
    s.after (c :: cs) = (s.after [c]).after cs := rfl

theorem after_append (s : Spot) (cs ds : List Char) : s.after (cs ++ ds) = (s.after cs).after ds :=
  List.foldl_append

@[simp] theorem after_groups (s : Spot) (cs : List Char) : (s.after cs).groups = s.groups := by
  induction cs generalizing s with
  | nil => rfl
  | cons c cs ih => rw [after_cons, ih]; rfl

theorem after_before (s : Spot) (cs : List Char) : (s.after cs).before = cs.getLast?.or s.before := by
  induction cs generalizing s with
  | nil => rfl
  | cons c cs ih =>
    rw [after_cons, ih]
    cases cs with
    | nil => rfl
    | cons d ds => simp [List.getLast?_cons]

@[simp] theorem after_rest (s : Spot) (cs : List Char) :
    (s.after cs).place.rest = s.place.rest.drop cs.length := by
  induction cs generalizing s with
  | nil => rfl
  | cons c cs ih =>
    rw [after_cons, ih, List.length_cons, Nat.add_comm, ← List.drop_drop, List.drop_one]
    rfl

@[simp] theorem after_offset (s : Spot) (cs : List Char) :
    (s.after cs).place.offset = s.place.offset + byteLength cs := by
  induction cs generalizing s with
  | nil => rfl
  | cons c cs ih =>
    rw [after_cons, ih, byteLength_cons, ← Nat.add_assoc]
    rfl

end Spot

namespace Expr
variable {cs : CharSet} {anyCase : Bool} {s t : Spot}

theorem mem_ends_set : t ∈ (Expr.set cs anyCase).ends s ↔
    ∃ c, s.place.rest.head? = some c ∧ cs.mem anyCase c = true ∧ t = s.after [c] := by
  rw [ends_set_eq]
  cases hrest : s.place.rest with
  | nil => simp
  | cons c rest =>
    by_cases hc : cs.mem anyCase c = true
    · simp [hc, Spot.after, hrest]
    · simp [hc]

theorem ends_set {c : Char} (hhead : s.place.rest.head? = some c) (hc : cs.mem anyCase c = true) :
    (Expr.set cs anyCase).ends s = [s.after [c]] := by
  obtain ⟨rest, hrest⟩ := List.head?_eq_some_iff.mp hhead
  simp [ends_set_eq, hrest, hc, Spot.after]

theorem ends_set_eq_nil (h : s.place.rest.head?.any (cs.mem anyCase) = false) :
    (Expr.set cs anyCase).ends s = [] := by
  simp [ends_set_eq, h]

/-- the characters of a set that follow -/
def leading (cs : CharSet) (anyCase : Bool) (s : Spot) : List Char :=
  s.place.rest.takeWhile (cs.mem anyCase)

theorem leading_eq_nil (h : s.place.rest.head?.any (cs.mem anyCase) = false) :
    leading cs anyCase s = [] := by
  cases hrest : s.place.rest with
  | nil => simp [leading, hrest]
  | cons c rest => simp_all [leading]

theorem leading_cons {c : Char} (hhead : s.place.rest.head? = some c)
    (hc : cs.mem anyCase c = true) :
    leading cs anyCase s = c :: leading cs anyCase (s.after [c]) := by
  obtain ⟨rest, hrest⟩ := List.head?_eq_some_iff.mp hhead
  simp [leading, hrest, hc]

/-- characters of the set before one that is not are all those that follow -/
theorem leading_eq {w rest : List Char} (hrest : s.place.rest = w ++ rest)
    (hw : ∀ c ∈ w, cs.mem anyCase c = true) (hnot : rest.head?.any (cs.mem anyCase) = false) :
    leading cs anyCase s = w := by
  have hnil : rest.takeWhile (cs.mem anyCase) = [] := by cases rest <;> simp_all
  rw [leading, hrest, List.takeWhile_append_of_pos hw, hnil, List.append_nil]

theorem head?_roundsEnds_set (left : List Char) (hleft : s.place.rest.length ≤ left.length) :
    (roundsEnds true (Expr.set cs anyCase).ends left s).head? =
      some (s.after (leading cs anyCase s)) := by
  induction left generalizing s with
  | nil =>
    have hnil : s.place.rest = [] := List.length_eq_zero_iff.mp (Nat.le_zero.mp hleft)
    simp [roundsEnds, leading, hnil]
  | cons d left ih =>
    cases hany : s.place.rest.head?.any (cs.mem anyCase) with
    | false =>
      rw [roundsEnds, ends_set_eq_nil hany, leading_eq_nil hany]
      rfl
    | true =>
      obtain ⟨c, hhead, hc⟩ := (Option.any_eq_true _ _).mp hany
      obtain ⟨rest, hrest⟩ := List.head?_eq_some_iff.mp hhead
      have hlength : (s.after [c]).place.rest.length ≤ left.length := by
        rw [hrest, List.length_cons, List.length_cons] at hleft
        rw [Spot.after_rest, hrest]
        exact Nat.le_of_succ_le_succ hleft
      rw [roundsEnds, ends_set hhead hc, leading_cons hhead hc, List.flatMap_singleton, prefer_true,
        List.head?_append, ih hlength]
      rfl

/-- **A run of characters of a set is tried in full first.** -/
theorem head?_ends_run (h : s.place.rest.head?.any (cs.mem anyCase) = true) :
    ((Expr.plus true (.set cs anyCase)).ends s).head? = some (s.after (leading cs anyCase s)) := by
  obtain ⟨c, hhead, hc⟩ := (Option.any_eq_true _ _).mp h
  have hlength : (s.after [c]).place.rest.length ≤ s.place.rest.length := by simp
  rw [(firm_set cs anyCase).ends_plus, ends_set hhead hc, leading_cons hhead hc,
    List.flatMap_singleton, head?_roundsEnds_set _ hlength]
  rfl

theorem ends_run_eq_nil (h : s.place.rest.head?.any (cs.mem anyCase) = false) :
    (Expr.plus true (.set cs anyCase)).ends s = [] :=
  ends_plus_eq_nil true (ends_set_eq_nil h)

/-- the same for a run that may be empty -/
theorem head?_ends_many (cs : CharSet) (anyCase : Bool) (s : Spot) :
    ((Expr.star true (.set cs anyCase)).ends s).head? = some (s.after (leading cs anyCase s)) := by
  rw [(firm_set cs anyCase).ends_star, head?_roundsEnds_set _ (Nat.le_refl _)]

/-! ## words -/

theorem mem_one (c d : Char) : (CharSet.one c).mem false d = (d == c) := by
  rw [CharSet.one, CharSet.mem, Bool.eq_iff_iff]
  simp only [Bool.false_and, Bool.or_false, Bool.and_eq_true, decide_eq_true_eq, beq_iff_eq]
  constructor
  · rintro ⟨hle, hge⟩
    exact Char.le_antisymm hge hle
  · rintro rfl
    exact ⟨Char.le_refl d, Char.le_refl d⟩

/-- the characters of `cs` one after the other, and then `e` -/
def word (cs : List Char) (e : Expr) : Expr :=
  cs.foldr (fun c e => .seq (.set (.one c) false) e) e

theorem ends_word (cs : List Char) (e : Expr) (s : Spot) :
    (word cs e).ends s = if cs <+: s.place.rest then e.ends (s.after cs) else [] := by
  induction cs generalizing s with
  | nil => simp [word]
  | cons c cs ih =>
    show (Expr.seq (.set (.one c) false) (word cs e)).ends s = _
    rw [ends_seq]
    cases hrest : s.place.rest with
    | nil => simp [ends_set_eq, hrest]
    | cons d rest =>
      by_cases hd : d = c
      · have hset : (Expr.set (.one c) false).ends s = [s.after [c]] :=
          ends_set (by rw [hrest, hd]; rfl) (by rw [mem_one, beq_self_eq_true])
        rw [hset, List.flatMap_singleton, ih, Spot.after_rest, hrest, hd, Spot.after_cons s c cs]
        simp [List.cons_prefix_cons]
      · have hset : (Expr.set (.one c) false).ends s = [] :=
          ends_set_eq_nil (by simp [hrest, mem_one, hd])
        rw [hset, if_neg fun h => hd (List.cons_prefix_cons.mp h).1.symm]
        rfl

end Expr

/-! ## patterns -/

namespace Pattern

theorem matchAt?_eq_none {pattern : Pattern} {p : Place} (h : pattern.expr.firstEnd? p = none) :
    pattern.matchAt? p = none := by
  rw [matchAt?, h]

theorem matchAt?_eq_some {pattern : Pattern} {p : Place} {s : Spot}
    (h : pattern.expr.firstEnd? p = some s) :
    pattern.matchAt? p = some (⟨p.textTo s.place, p.spanTo s.place,
      (List.range pattern.expr.groupCount).map fun i => s.groupText (i + 1)⟩, s.place) := by
  rw [matchAt?, h]

/-- the pattern of an expression at the start of a text -/
def starting (source : String) (e : Expr) : Pattern :=
  ⟨anchoredSource source, .seq (.assert .textStart) e⟩

/-- the match from `p` that ends at the spot -/
def found (e : Expr) (p : Place) (s : Spot) : Match :=
  ⟨p.textTo s.place, p.spanTo s.place, (List.range e.groupCount).map fun i => s.groupText (i + 1)⟩

theorem firstEnd?_starting (source : String) (e : Expr) (p : Place) :
    (starting source e).expr.firstEnd? p = (e.ends (Spot.start p)).head? := by
  rw [← Expr.ends_textStart]
  exact Expr.firstEnd?_eq _ p

theorem endAt?_starting (source : String) (e : Expr) (p : Place) :
    (starting source e).endAt? p = (e.ends (Spot.start p)).head?.map Spot.place := by
  rw [endAt?, firstEnd?_starting]

theorem matchAt?_starting (source : String) (e : Expr) (p : Place) :
    (starting source e).matchAt? p =
      (e.ends (Spot.start p)).head?.map fun s => (found e p s, s.place) := by
  have hcount : (Expr.seq (.assert .textStart) e).groupCount = e.groupCount := by
    simp [Expr.groupCount]
  have hfirst := firstEnd?_starting source e p
  cases hend : (e.ends (Spot.start p)).head? with
  | none => exact matchAt?_eq_none (hfirst.trans hend)
  | some s =>
    rw [matchAt?_eq_some (hfirst.trans hend)]
    simp [found, starting, hcount]

end Pattern

end Packrat
