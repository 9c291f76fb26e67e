import Packrat.Proofs.Moves

/-!
# What a run remembers

* `Ledger.known?_remember_self`, `Ledger.known?_remember_of_ne`   what is remembered is found again;
* `Ledger.enter_done`, `Ledger.enter_inProgress`, `Ledger.enter_absent`   an attempt at a rule,
  after what is remembered of it;
* `underWay`            the attempts that have begun and not ended, the latest first;
* `Ledger.Within p`     the run stands, and its memory leads, to places at or after `p`;
* `Ledger.Extends p`    what a run may do to a ledger: nothing is forgotten, what has begun since has
                        ended, and no place before `p` is reached;
* `Settles.extends`     a parser does no more than that.
-/

namespace Packrat

namespace Ledger
variable {τ : Type} {g : Graph τ} {l : Ledger τ}

/-! ## entries -/

theorem key_congr {l' : Ledger τ} (h : l'.reader.place = l.reader.place) (rule : Nat) :
    l'.key rule = l.key rule := by
  rw [key, key, Reader.offset, Reader.offset, h]

theorem known?_eq_none (h : l.memo = none) (key : Memo.Key) : l.known? key = none := by
  rw [known?, h]

/-- only a run with a memory remembers anything -/
theorem isSome_of_known? {key : Memo.Key} {entry : Memo.Entry τ} (h : l.known? key = some entry) :
    l.memo.isSome = true := by
  cases hmemo : l.memo with
  | none =>
    rw [known?_eq_none hmemo] at h
    cases h
  | some memo => rfl

theorem known?_remember_self (h : l.memo.isSome = true) (key : Memo.Key) (entry : Memo.Entry τ) :
    (l.remember key entry).known? key = some entry := by
  obtain ⟨memo, hmemo⟩ := Option.isSome_iff_exists.mp h
  show (match l.memo.map (·.insert key entry) with
    | none => none
    | some memo => memo[key]?) = some entry
  rw [hmemo]
  exact Std.TreeMap.getElem?_insert_self

theorem known?_remember_of_ne {key key' : Memo.Key} (hne : key' ≠ key) (entry : Memo.Entry τ) :
    (l.remember key entry).known? key' = l.known? key' := by
  cases hmemo : l.memo with
  | none =>
    rw [known?_eq_none hmemo, known?_eq_none]
    show l.memo.map _ = none
    rw [hmemo]
    rfl
  | some memo =>
    rw [known?, known?, hmemo]
    show (match l.memo.map (·.insert key entry) with
      | none => none
      | some memo => memo[key']?) = memo[key']?
    rw [hmemo]
    show (memo.insert key entry)[key']? = memo[key']?
    rw [Std.TreeMap.getElem?_insert, if_neg]
    intro h
    exact hne (Memo.Key.order_eq_iff.mp h).symm

/-! ## attempts -/

/-- an attempt begins that is to be remembered, if the run remembers any -/
def begun (l : Ledger τ) (rule : Nat) : Ledger τ :=
  match l.memo with
  | none => l.opened rule
  | some _ => (l.embark rule).opened rule

@[simp] theorem begun_reader (l : Ledger τ) (rule : Nat) : (l.begun rule).reader = l.reader := by
  rw [begun]
  split <;> rfl

@[simp] theorem begun_events (l : Ledger τ) (rule : Nat) :
    (l.begun rule).events = .entered rule l.reader.offset :: l.events := by
  rw [begun]
  split <;> rfl

@[simp] theorem begun_cuts (l : Ledger τ) (rule : Nat) :
    (l.begun rule).tally.recursionCuts = l.tally.recursionCuts := by
  rw [begun]
  split <;> rfl

@[simp] theorem begun_memo_isSome (l : Ledger τ) (rule : Nat) :
    (l.begun rule).memo.isSome = l.memo.isSome := by
  rw [begun]
  split
  · rfl
  · show (l.memo.map _).isSome = l.memo.isSome
    rw [Option.isSome_map]

theorem begun_memo_none (h : l.memo = none) (rule : Nat) : (l.begun rule).memo = none := by
  rw [begun, h]
  exact h

theorem known?_begun_self (h : l.memo.isSome = true) (rule : Nat) :
    (l.begun rule).known? (l.key rule) = some .inProgress := by
  obtain ⟨memo, hmemo⟩ := Option.isSome_iff_exists.mp h
  rw [begun, hmemo]
  exact known?_remember_self (l := l.count _) h (l.key rule) .inProgress

theorem known?_begun_of_ne {rule : Nat} {key : Memo.Key} (hne : key ≠ l.key rule) :
    (l.begun rule).known? key = l.known? key := by
  rw [begun]
  split
  · rfl
  · exact known?_remember_of_ne (l := l.count _) hne .inProgress

theorem known?_closed_self (h : l.memo.isSome = true) (rule : Nat) (start : Place)
    (result : Option (Fragment τ)) :
    (l.closed rule start result).known? ⟨start.offset, rule⟩ = some (.done result l.reader.place) :=
  known?_remember_self h _ _

theorem known?_closed_of_ne {rule : Nat} {start : Place} {key : Memo.Key}
    (hne : key ≠ ⟨start.offset, rule⟩) (result : Option (Fragment τ)) :
    (l.closed rule start result).known? key = l.known? key :=
  known?_remember_of_ne hne _

theorem closed_memo_isSome (l : Ledger τ) (rule : Nat) (start : Place)
    (result : Option (Fragment τ)) : (l.closed rule start result).memo.isSome = l.memo.isSome := by
  show (l.memo.map _).isSome = l.memo.isSome
  rw [Option.isSome_map]

theorem isSome_of_closed {rule : Nat} {start : Place} {result : Option (Fragment τ)}
    {key : Memo.Key} {entry : Memo.Entry τ}
    (h : (l.closed rule start result).known? key = some entry) : l.memo.isSome = true :=
  closed_memo_isSome l rule start result ▸ isSome_of_known? h

theorem closed_memo_none (h : l.memo = none) (rule : Nat) (start : Place)
    (result : Option (Fragment τ)) : (l.closed rule start result).memo = none := by
  show l.memo.map _ = none
  rw [h]
  rfl

/-! What comes of an attempt depends on the rule and on what is remembered. -/

theorem enter_undefined {rule : Nat} (h : g.root? rule = none) :
    l.enter g rule = (.answer none, l) := by
  rw [enter, h]

theorem attempt_eq_match (l : Ledger τ) (rule root : Nat) :
    l.attempt rule root = match l.known? (l.key rule) with
      | some (.done result stop) => (.answer result, l.reuse stop)
      | some .inProgress => (.answer none, l.cutOff rule)
      | none => (.wait (.rule rule l.reader.place) root, l.begun rule) := by
  rw [attempt, known?, begun]
  cases l.memo with
  | none => rfl
  | some memo =>
    show (match memo[l.key rule]? with
      | some (.done result stop) => _
      | some .inProgress => _
      | none => _) = (match memo[l.key rule]? with
      | some (.done result stop) => _
      | some .inProgress => _
      | none => _)
    cases memo[l.key rule]? with
    | none => rfl
    | some entry => cases entry <;> rfl

theorem enter_done {rule root : Nat} {result : Option (Fragment τ)} {stop : Place}
    (hroot : g.root? rule = some root) (h : l.known? (l.key rule) = some (.done result stop)) :
    l.enter g rule = (.answer result, l.reuse stop) := by
  rw [enter, hroot]
  show l.attempt rule root = _
  rw [attempt_eq_match, h]

theorem enter_inProgress {rule root : Nat} (hroot : g.root? rule = some root)
    (h : l.known? (l.key rule) = some .inProgress) :
    l.enter g rule = (.answer none, l.cutOff rule) := by
  rw [enter, hroot]
  show l.attempt rule root = _
  rw [attempt_eq_match, h]

theorem enter_absent {rule root : Nat} (hroot : g.root? rule = some root)
    (h : l.known? (l.key rule) = none) :
    l.enter g rule = (.wait (.rule rule l.reader.place) root, l.begun rule) := by
  rw [enter, hroot]
  show l.attempt rule root = _
  rw [attempt_eq_match, h]

end Ledger

/-- the attempts that have begun and not ended, the latest first, as the events tell -/
def underWay : List Event → List Memo.Key
  | [] => []
  | .entered rule offset :: events => ⟨offset, rule⟩ :: underWay events
  | .exited _ _ _ :: events => (underWay events).tail
  | _ :: events => underWay events

theorem underWay_of_plain {e : Event} (h : e.Plain) (events : List Event) :
    underWay (e :: events) = underWay events := by
  cases e with
  | unresolved name => rfl
  | stalled offset => rfl
  | entered rule offset => cases h
  | exited rule offset matched => cases h
  | cut rule offset => cases h

/-! ## runs extend ledgers -/

namespace Ledger
variable {τ : Type}

/-- the run stands at or after `p`, and so do the ends of the attempts that it remembers -/
structure Within (p : Place) (l : Ledger τ) : Prop where
  here : p ≤ l.reader.place
  stop : ∀ key result stop, l.known? key = some (.done result stop) → p ≤ stop

/-- nothing is forgotten, what has begun since has ended, and no place before `p` is reached -/
structure Extends (p : Place) (l l' : Ledger τ) : Prop where
  within : l'.Within p
  memo : l'.memo.isSome = l.memo.isSome
  furthest : l.reader.furthest ≤ l'.reader.furthest
  cuts : l.tally.recursionCuts ≤ l'.tally.recursionCuts
  events : l.events <:+ l'.events
  ended : underWay l'.events = underWay l.events
  known : ∀ {key entry}, l.known? key = some entry → l'.known? key = some entry
  inProgress : ∀ {key}, l'.known? key = some .inProgress → l.known? key = some .inProgress

theorem Within.begun {p : Place} {l : Ledger τ} (h : l.Within p) (rule : Nat) :
    (l.begun rule).Within p := by
  refine ⟨by rw [begun_reader]; exact h.here, fun key result stop hkey => ?_⟩
  by_cases hne : key = l.key rule
  · have hmemo : l.memo.isSome = true := begun_memo_isSome l rule ▸ isSome_of_known? hkey
    rw [hne, known?_begun_self hmemo] at hkey
    cases hkey
  · rw [known?_begun_of_ne hne] at hkey
    exact h.stop key result stop hkey

namespace Extends
variable {p : Place} {l₀ l l' : Ledger τ}

theorem refl (h : l.Within p) : Extends p l l :=
  ⟨h, rfl, Nat.le_refl _, Nat.le_refl _, List.suffix_refl _, rfl, id, id⟩

theorem trans (h : Extends p l₀ l) (h' : Extends p l l') : Extends p l₀ l' :=
  ⟨h'.within, h'.memo.trans h.memo, Nat.le_trans h.furthest h'.furthest,
    Nat.le_trans h.cuts h'.cuts, h.events.trans h'.events, h'.ended.trans h.ended,
    fun hkey => h'.known (h.known hkey), fun hkey => h.inProgress (h'.inProgress hkey)⟩

theorem moveTo (h : Extends p l₀ l) {q : Place} (hq : p ≤ q) : Extends p l₀ (l.moveTo q) :=
  { h with within := ⟨hq, h.within.stop⟩ }

theorem readTo (h : Extends p l₀ l) {q : Place} (hq : l.reader.place ≤ q) :
    Extends p l₀ (l.readTo q) :=
  { h with
    within := ⟨Place.le_trans h.within.here hq, h.within.stop⟩
    furthest := Nat.le_trans h.furthest (Nat.le_max_left _ _) }

theorem count (h : Extends p l₀ l) {f : Tally → Tally}
    (hf : ∀ t, t.recursionCuts ≤ (f t).recursionCuts) : Extends p l₀ (l.count f) :=
  { h with
    within := ⟨h.within.here, h.within.stop⟩
    cuts := Nat.le_trans h.cuts (hf _) }

theorem note (h : Extends p l₀ l) {e : Event}
    (he : ∀ events, underWay (e :: events) = underWay events) : Extends p l₀ (l.note e) :=
  { h with
    within := ⟨h.within.here, h.within.stop⟩
    events := h.events.trans (List.suffix_cons _ _)
    ended := (he _).trans h.ended }

theorem reuse (h : Extends p l₀ l) {q : Place} (hq : p ≤ q) : Extends p l₀ (l.reuse q) :=
  (h.count (f := fun t => { t with memoHits := t.memoHits + 1 }) fun _ => Nat.le_refl _).moveTo hq

theorem cutOff (h : Extends p l₀ l) (rule : Nat) : Extends p l₀ (l.cutOff rule) :=
  (h.count (f := fun t => { t with recursionCuts := t.recursionCuts + 1 })
    fun _ => Nat.le_succ _).note fun _ => rfl

theorem congruence (p : Place) (l₀ : Ledger τ) :
    Congruence (fun l l' => l = l' ∧ Extends p l₀ l) (p ≤ ·) where
  same h := congrArg (·.reader.place) h.1
  here h := h.2.within.here
  moveTo := by
    rintro l _ q ⟨rfl, h⟩ hq
    exact ⟨rfl, h.moveTo hq⟩
  readTo := by
    rintro l _ q ⟨rfl, h⟩ hq
    exact ⟨rfl, h.readTo hq⟩
  count := by
    rintro l _ f hf ⟨rfl, h⟩
    exact ⟨rfl, h.count fun t => Nat.le_of_eq (hf t).symm⟩
  note := by
    rintro l _ e he ⟨rfl, h⟩
    exact ⟨rfl, h.note (underWay_of_plain he)⟩

/-- **An attempt that begins and ends extends the ledger**, if it was not known before. -/
theorem attempted {rule : Nat} (habsent : l.known? (l.key rule) = none)
    (h : Extends p (l.begun rule) l') (result : Option (Fragment τ)) :
    Extends p l (l'.closed rule l.reader.place result) := by
  refine ⟨⟨h.within.here, ?_⟩, ?_, ?_, ?_, ?_, ?_, ?_, ?_⟩
  · intro key result' stop hkey
    by_cases hne : key = l.key rule
    · rw [hne] at hkey
      cases (known?_closed_self (isSome_of_closed hkey) rule l.reader.place result).symm.trans hkey
      exact h.within.here
    · rw [known?_closed_of_ne hne] at hkey
      exact h.within.stop key result' stop hkey
  · rw [closed_memo_isSome, h.memo, begun_memo_isSome]
  · have := h.furthest
    rwa [begun_reader] at this
  · have := h.cuts
    rwa [begun_cuts] at this
  · have := h.events
    rw [begun_events] at this
    exact (List.suffix_cons _ _).trans (this.trans (List.suffix_cons _ _))
  · show (underWay l'.events).tail = underWay l.events
    rw [h.ended, begun_events]
    rfl
  · intro key entry hkey
    have hne : key ≠ l.key rule := by
      rintro rfl
      rw [habsent] at hkey
      cases hkey
    rw [known?_closed_of_ne hne]
    exact h.known (by rwa [known?_begun_of_ne hne])
  · intro key hkey
    by_cases hne : key = l.key rule
    · rw [hne] at hkey
      cases (known?_closed_self (isSome_of_closed hkey) rule l.reader.place result).symm.trans hkey
    · rw [known?_closed_of_ne hne] at hkey
      rw [← known?_begun_of_ne hne]
      exact h.inProgress hkey

end Extends

end Ledger

section
variable {τ : Type} {g : Graph τ} {ignorables : List Pattern} {p : Place} {l : Ledger τ}
  {r : Option (Fragment τ)} {l' : Ledger τ}

/-- what is shown of the moves of a run: they extend the ledger, and a wait for the end of an attempt
does so up to that end -/
def Extending (p : Place) (x : Move τ × Ledger τ) (r : Option (Fragment τ)) (l' : Ledger τ) : Prop :=
  ∀ l₀ : Ledger τ, l₀.Extends p x.2 →
    (x.1.Plain (p ≤ ·) → l₀.Extends p l') ∧
      ∀ rule start node, x.1 = .wait (.rule rule start) node →
        ∃ l₁, l₀.Extends p l₁ ∧ l' = l₁.closed rule start r

theorem Extending.enter {rule : Nat} (hl : l.Within p) (h : Extending p (l.enter g rule) r l') :
    l.Extends p l' := by
  have hrefl : l.Extends p l := .refl hl
  cases hroot : g.root? rule with
  | none =>
    rw [Ledger.enter_undefined hroot] at h
    exact (h l hrefl).1 trivial
  | some root =>
    cases hentry : l.known? (l.key rule) with
    | none =>
      rw [Ledger.enter_absent hroot hentry] at h
      obtain ⟨l₁, hl₁, rfl⟩ := (h _ (.refl (hl.begun rule))).2 _ _ _ rfl
      exact .attempted hentry hl₁ r
    | some entry =>
      cases entry with
      | inProgress =>
        rw [Ledger.enter_inProgress hroot hentry] at h
        exact (h l (hrefl.cutOff rule)).1 trivial
      | done result stop =>
        rw [Ledger.enter_done hroot hentry] at h
        exact (h l (hrefl.reuse (hl.stop _ _ _ hentry))).1 trivial

theorem Extending.start {node : Nat} (hl : l.Within p)
    (h : Extending p (l.start g ignorables node) r l') : l.Extends p l' := by
  rcases start_alike g ignorables (Ledger.Extends.congruence p l) ⟨rfl, .refl hl⟩ node with
    ⟨rule, hrule⟩ | halike
  · rw [hrule] at h
    exact h.enter hl
  · exact (h l halike.ledger.2).1 halike.plain

theorem Settles.extending {k : Nat} {x : Move τ × Ledger τ} (h : Settles g ignorables k x r l') :
    Extending p x r l' := by
  induction h with
  | answer r l => exact fun _ hx => ⟨fun _ => hx, fun _ _ _ h => nomatch h⟩
  | @wait i j frame node l l₁ l₂ part result h₁ h₂ ih₁ ih₂ =>
    intro l₀ hx
    have hpart : l₀.Extends p l₁ := hx.trans (ih₁.start hx.within)
    constructor
    · intro hplain
      have halike := resume_alike (Ledger.Extends.congruence p l₀) ⟨rfl, hpart⟩ hplain part
      exact (ih₂ l₀ halike.ledger.2).1 halike.plain
    · rintro rule start _ ⟨⟩
      obtain ⟨-, rfl, rfl⟩ := h₂.answer_inv
      exact ⟨l₁, hpart, rfl⟩

/-- **Parsing extends the ledger.** -/
theorem Settles.extends_start {k node : Nat} (hl : l.Within p)
    (h : Settles g ignorables k (l.start g ignorables node) r l') : l.Extends p l' :=
  h.extending.start hl

theorem Settles.extends_enter {k rule : Nat} (hl : l.Within p)
    (h : Settles g ignorables k (l.enter g rule) r l') : l.Extends p l' :=
  h.extending.enter hl

/-- **So does a parser that goes on**, once it has the result of its part. -/
theorem Settles.extends_resume {k : Nat} {frame : Frame τ} {part : Option (Fragment τ)}
    (hl : l.Within p) (hframe : frame.Plain (p ≤ ·))
    (h : Settles g ignorables k (l.resume frame part) r l') : l.Extends p l' := by
  have halike := resume_alike (Ledger.Extends.congruence p l) ⟨rfl, .refl hl⟩ hframe part
  exact (h.extending l halike.ledger.2).1 halike.plain

/-- an attempt that begins is made from its root, and then closed -/
theorem Settles.rule_inv {k rule root : Nat} {start : Place}
    (h : Settles g ignorables k (.wait (.rule rule start) root, l) r l') :
    ∃ i l₁, Settles g ignorables i (l.start g ignorables root) r l₁ ∧
      l' = l₁.closed rule start r ∧ k = i + 1 := by
  obtain ⟨i, j, part, l₁, h₁, h₂, rfl⟩ := h.wait_inv
  obtain ⟨rfl, rfl, rfl⟩ := h₂.answer_inv
  exact ⟨i, l₁, h₁, rfl, rfl⟩

/-- an attempt that was not under way is remembered once it is over -/
theorem Settles.known_enter {k rule root : Nat} (hl : l.Within p) (hmemo : l.memo.isSome = true)
    (hroot : g.root? rule = some root) (hkey : l.known? (l.key rule) ≠ some .inProgress)
    (h : Settles g ignorables k (l.enter g rule) r l') :
    l'.known? (l.key rule) = some (.done r l'.reader.place) := by
  cases hentry : l.known? (l.key rule) with
  | none =>
    rw [Ledger.enter_absent hroot hentry] at h
    obtain ⟨i, l₁, h₁, rfl, -⟩ := h.rule_inv
    have hextends := h₁.extends_start (hl.begun rule)
    refine Ledger.known?_closed_self ?_ rule l.reader.place r
    rw [hextends.memo, Ledger.begun_memo_isSome]
    exact hmemo
  | some entry =>
    cases entry with
    | inProgress => exact absurd hentry hkey
    | done result stop =>
      rw [Ledger.enter_done hroot hentry] at h
      obtain ⟨-, rfl, rfl⟩ := h.answer_inv
      exact hentry

end

end Packrat
