import Packrat.Proofs.Free

/-!
# A run with a memory beside one without

Two runs parse the same text in step, one with a memory and one without.  Where the first takes a
result from memory, the second finds it again; where the first cuts an attempt off, the second goes
on and on.

* `Leads`            without a memory, a parser finds that result, and comes no further than it has;
* `Mirrors p K`      the runs stand at the same place, at or after `p`; what is remembered is what the
                     run without a memory finds; the attempts under way have `K`;
* `Unfolds`          a run with a memory that is not cut off is a run without one;
* `Costly k K`       to make any of the attempts `K` without a memory takes at least `k` waits;
* `Carries`          a run without a memory is one with a memory that is not cut off.
-/

namespace Packrat

section
variable {τ : Type}

/-- nothing is remembered, counted or noted -/
def Ledger.blank (r : Reader) : Ledger τ := ⟨r, none, {}, []⟩

/-- without a memory, the parser finds that result at `p` and ends at `q`, and reads no further than
the offset `e`, up to which matches have come already -/
def Leads (g : Graph τ) (ignorables : List Pattern) (node : Nat) (p : Place)
    (result : Option (Fragment τ)) (q : Place) (e : Nat) : Prop :=
  ReadsTo g ignorables ((Ledger.blank ⟨p, e⟩).start g ignorables node) result ⟨q, e⟩

variable {g : Graph τ} {ignorables : List Pattern}

theorem Leads.mono {node : Nat} {p q : Place} {result : Option (Fragment τ)} {e e' : Nat}
    (h : Leads g ignorables node p result q e) (he : e ≤ e') :
    Leads g ignorables node p result q e' := by
  obtain ⟨k, l, hk, hr, -⟩ := h
  have hraised : Raised (τ := τ) e' (.blank ⟨p, e⟩) (.blank ⟨p, e'⟩) :=
    ⟨rfl, rfl, by rw [Ledger.blank, Ledger.blank, Reader.raise, Nat.max_eq_right he]⟩
  obtain ⟨l', hk', hl'⟩ := hk.raise hraised
  refine ⟨k, l', hk', ?_, hl'.right⟩
  rw [hl'.reader, hr, Reader.raise, Nat.max_eq_right he]

theorem Ledger.within_of_none {l : Ledger τ} (hl : l.memo = none) : l.Within l.reader.place :=
  ⟨Place.le_refl _, fun key _ _ h => by rw [known?_eq_none hl key] at h; cases h⟩

/-- a run without a memory leads to where it ends -/
theorem Settles.leads {k node : Nat} {l m : Ledger τ} {r : Option (Fragment τ)}
    (h : Settles g ignorables k (l.start g ignorables node) r m) (hl : l.memo = none) :
    Leads g ignorables node l.reader.place r m.reader.place m.reader.furthest := by
  have hle : l.reader.furthest ≤ m.reader.furthest :=
    (h.extends_start (Ledger.within_of_none hl)).furthest
  have hraised : Raised m.reader.furthest l (.blank ⟨l.reader.place, m.reader.furthest⟩) :=
    ⟨hl, rfl, by rw [Ledger.blank, Reader.raise, Nat.max_eq_right hle]⟩
  obtain ⟨m', hm', hm⟩ := h.raise hraised
  refine ⟨k, m', hm', ?_, hm.right⟩
  rw [hm.reader, Reader.raise_eq_self (Nat.le_refl _)]

/-- **Without a memory, how long parsing takes depends on the place alone.** -/
theorem Settles.cost_unique {k k' node : Nat} {l l' m m' : Ledger τ} {r r' : Option (Fragment τ)}
    (h : Settles g ignorables k (l.start g ignorables node) r m)
    (h' : Settles g ignorables k' (l'.start g ignorables node) r' m') (hl : l.memo = none)
    (hl' : l'.memo = none) (hplace : l'.reader.place = l.reader.place) : k = k' := by
  -- both are raised to one reader
  have hraised : Raised l'.reader.furthest l (.blank (l.reader.raise l'.reader.furthest)) :=
    ⟨hl, rfl, rfl⟩
  have hraised' : Raised l.reader.furthest l' (.blank (l.reader.raise l'.reader.furthest)) :=
    ⟨hl', rfl, by rw [Ledger.blank, Reader.raise, Reader.raise, hplace, Nat.max_comm]⟩
  obtain ⟨n, hn, -⟩ := h.raise hraised
  obtain ⟨n', hn', -⟩ := h'.raise hraised'
  exact (hn.unique hn').1

/-! ## the relation -/

/-- the run `l` with a memory stands where the run `l₀` without one does; what it remembers is what
the other finds, and its attempts under way have `K` -/
structure Mirrors (g : Graph τ) (ignorables : List Pattern) (p : Place) (c : Nat)
    (K : Memo.Key → Prop) (l₀ l : Ledger τ) : Prop where
  free : l₀.memo = none
  memo : l.memo.isSome = true
  reader : l₀.reader = l.reader
  here : p ≤ l.reader.place
  cuts : l.tally.recursionCuts = c
  sound : ∀ {key result stop}, l.known? key = some (.done result stop) →
    ∃ place root, p ≤ place ∧ place.offset = key.offset ∧ g.root? key.rule = some root ∧
      p ≤ stop ∧ Leads g ignorables root place result stop l.reader.furthest
  pending : ∀ {key}, l.known? key = some .inProgress → K key

namespace Mirrors
variable {p : Place} {c : Nat} {K : Memo.Key → Prop} {l₀ l : Ledger τ}

theorem congruence (g : Graph τ) (ignorables : List Pattern) (p : Place) (c : Nat)
    (K : Memo.Key → Prop) :
    Congruence (Mirrors g ignorables p c K) (p ≤ ·) where
  same h := congrArg Reader.place h.reader
  here h := h.reader ▸ h.here
  moveTo {_ _ q} h hq :=
    { h with reader := congrArg (·.moveTo q) h.reader, here := hq }
  readTo {l₀ l q} h hq := by
    have hreader : (l₀.readTo q).reader = (l.readTo q).reader := by
      show (⟨q, max l₀.reader.furthest q.offset⟩ : Reader) = ⟨q, max l.reader.furthest q.offset⟩
      rw [h.reader]
    refine { h with reader := hreader, here := Place.le_trans h.here (h.reader ▸ hq), sound := ?_ }
    intro key result stop hkey
    obtain ⟨place, root, hplace, hoffset, hroot, hstop, hleads⟩ := h.sound hkey
    exact ⟨place, root, hplace, hoffset, hroot, hstop, hleads.mono (Nat.le_max_left _ _)⟩
  count _ hf h := { h with cuts := (hf _).trans h.cuts }
  note _ _ h := { h with }

theorem within (h : Mirrors g ignorables p c K l₀ l) : l.Within p := by
  refine ⟨h.here, fun key result stop hkey => ?_⟩
  obtain ⟨_, _, _, _, _, hstop, _⟩ := h.sound hkey
  exact hstop

/-- what is remembered of an attempt here, the run without a memory finds here -/
theorem finds {rule root : Nat} {result : Option (Fragment τ)} {stop : Place}
    (h : Mirrors g ignorables p c K l₀ l) (hroot : g.root? rule = some root)
    (hkey : l.known? (l.key rule) = some (.done result stop)) :
    ReadsTo g ignorables ((l₀.begun rule).start g ignorables root) result
      ⟨stop, l.reader.furthest⟩ := by
  obtain ⟨place, root', hplace, hoffset, hroot', -, k, l₁, hk, hreader, -⟩ := h.sound hkey
  cases hroot.symm.trans hroot'
  cases Place.le_ext hplace h.here hoffset
  have hraised : Raised 0 (.blank ⟨l.reader.place, l.reader.furthest⟩) (l₀.begun rule) :=
    .refl rfl (Ledger.begun_memo_none h.free rule) ((Ledger.begun_reader l₀ rule).trans h.reader)
  obtain ⟨l₂, hk₂, hl₂⟩ := hk.raise hraised
  exact ⟨k, l₂, hk₂, by rw [hl₂.reader, Reader.raise_eq_self (Nat.zero_le _), hreader], hl₂.right⟩

theorem reuse {rule : Nat} {result : Option (Fragment τ)} {stop : Place} {l₁ : Ledger τ}
    (h : Mirrors g ignorables p c K l₀ l) (hkey : l.known? (l.key rule) = some (.done result stop))
    (hmemo : l₁.memo = none) (hreader : l₁.reader = ⟨stop, l.reader.furthest⟩) :
    Mirrors g ignorables p c K l₁ (l.reuse stop) :=
  { h with free := hmemo, reader := hreader, here := h.within.stop _ _ _ hkey }

theorem begun (h : Mirrors g ignorables p c K l₀ l) (rule : Nat) :
    Mirrors g ignorables p c (fun key => K key ∨ key = l.key rule) (l₀.begun rule) (l.begun rule) := by
  refine ⟨Ledger.begun_memo_none h.free rule, ?_, ?_, ?_, ?_, ?_, ?_⟩
  · rw [Ledger.begun_memo_isSome]
    exact h.memo
  · rw [Ledger.begun_reader, Ledger.begun_reader]
    exact h.reader
  · rw [Ledger.begun_reader]
    exact h.here
  · rw [Ledger.begun_cuts]
    exact h.cuts
  · intro key result stop hkey
    rw [Ledger.begun_reader]
    by_cases hne : key = l.key rule
    · rw [hne, Ledger.known?_begun_self h.memo] at hkey
      cases hkey
    · rw [Ledger.known?_begun_of_ne hne] at hkey
      exact h.sound hkey
  · intro key hkey
    by_cases hne : key = l.key rule
    · exact .inr hne
    · rw [Ledger.known?_begun_of_ne hne] at hkey
      exact .inl (h.pending hkey)

/-- an attempt that has found what the run without a memory finds is closed -/
theorem closed {rule root : Nat} {start : Place} {result : Option (Fragment τ)}
    (h : Mirrors g ignorables p c (fun key => K key ∨ key = ⟨start.offset, rule⟩) l₀ l)
    (hstart : p ≤ start) (hroot : g.root? rule = some root)
    (hleads : Leads g ignorables root start result l.reader.place l.reader.furthest) :
    Mirrors g ignorables p c K (l₀.closed rule start result) (l.closed rule start result) := by
  refine ⟨Ledger.closed_memo_none h.free _ _ _, ?_, h.reader, h.here, h.cuts, ?_, ?_⟩
  · rw [Ledger.closed_memo_isSome]
    exact h.memo
  · intro key result' stop hkey
    by_cases hne : key = ⟨start.offset, rule⟩
    · subst hne
      cases (Ledger.known?_closed_self h.memo rule start result).symm.trans hkey
      exact ⟨start, root, hstart, rfl, hroot, h.here, hleads⟩
    · rw [Ledger.known?_closed_of_ne hne] at hkey
      exact h.sound hkey
  · intro key hkey
    by_cases hne : key = ⟨start.offset, rule⟩
    · subst hne
      cases (Ledger.known?_closed_self h.memo rule start result).symm.trans hkey
    · rw [Ledger.known?_closed_of_ne hne] at hkey
      exact (h.pending hkey).resolve_right hne

end Mirrors

/-! ## cuts -/

theorem cuts_congruence (c : Nat) :
    Congruence (fun l l' : Ledger τ => l = l' ∧ c ≤ l.tally.recursionCuts) fun _ => True where
  same h := congrArg (·.reader.place) h.1
  here _ := trivial
  moveTo {_ _ p} h _ := ⟨congrArg (·.moveTo p) h.1, h.2⟩
  readTo {_ _ q} h _ := ⟨congrArg (·.readTo q) h.1, h.2⟩
  count f hf h := ⟨congrArg (·.count f) h.1, (hf _).symm ▸ h.2⟩
  note e _ h := ⟨congrArg (·.note e) h.1, h.2⟩

theorem Ledger.cuts_le_enter (g : Graph τ) (l : Ledger τ) (rule : Nat) :
    l.tally.recursionCuts ≤ (l.enter g rule).2.tally.recursionCuts := by
  cases hroot : g.root? rule with
  | none => exact Nat.le_of_eq (by rw [enter_undefined hroot])
  | some root =>
    cases hentry : l.known? (l.key rule) with
    | none => exact Nat.le_of_eq (by rw [enter_absent hroot hentry, begun_cuts])
    | some entry =>
      cases entry with
      | inProgress =>
        rw [enter_inProgress hroot hentry]
        exact Nat.le_succ _
      | done result stop =>
        rw [enter_done hroot hentry]
        exact Nat.le_refl _

theorem Ledger.cuts_le_start (g : Graph τ) (ignorables : List Pattern) (l : Ledger τ) (node : Nat) :
    l.tally.recursionCuts ≤ (l.start g ignorables node).2.tally.recursionCuts := by
  rcases start_alike g ignorables (cuts_congruence l.tally.recursionCuts)
    ⟨rfl, Nat.le_refl _⟩ node with ⟨rule, hrule⟩ | halike
  · rw [hrule]
    exact l.cuts_le_enter g rule
  · exact halike.ledger.2

theorem Ledger.cuts_le_resume (l : Ledger τ) (frame : Frame τ) (part : Option (Fragment τ)) :
    l.tally.recursionCuts ≤ (l.resume frame part).2.tally.recursionCuts := by
  rcases frame.rule_or_plain with ⟨rule, start, rfl⟩ | hplain
  · exact Nat.le_refl _
  · exact (resume_alike (cuts_congruence l.tally.recursionCuts) ⟨rfl, Nat.le_refl _⟩ hplain
      part).ledger.2

theorem Settles.cuts_le {k : Nat} {x : Move τ × Ledger τ} {r : Option (Fragment τ)} {l : Ledger τ}
    (h : Settles g ignorables k x r l) : x.2.tally.recursionCuts ≤ l.tally.recursionCuts :=
  h.preserves (P := fun l l' => l.tally.recursionCuts ≤ l'.tally.recursionCuts)
    (fun _ => Nat.le_refl _) (fun _ _ _ => Nat.le_trans) (Ledger.cuts_le_start g ignorables)
    Ledger.cuts_le_resume

/-! ## from the run with a memory to the one without -/

/-- an attempt of which nothing is known is made from the root of the rule -/
theorem Settles.enter_of_root {k rule root : Nat} {l l' : Ledger τ} {r : Option (Fragment τ)}
    (habsent : l.known? (l.key rule) = none) (hroot : g.root? rule = some root)
    (h : Settles g ignorables k ((l.begun rule).start g ignorables root) r l') :
    Settles g ignorables (k + 0 + 1) (l.enter g rule) r (l'.closed rule l.reader.place r) := by
  have hclosed : Settles g ignorables 0 (l'.resume (.rule rule l.reader.place) r) r
      (l'.closed rule l.reader.place r) := .answer _ _
  rw [Ledger.enter_absent hroot habsent]
  exact .wait h hclosed

section
variable {p : Place} {c : Nat} {K : Memo.Key → Prop} {l₀ l m : Ledger τ} {r : Option (Fragment τ)}

/-- what is shown of the moves of a run with a memory: if nothing is cut off, a run without one that
it mirrors comes to the same; with a wait for the end of an attempt, so does the attempt -/
def Unfolds (g : Graph τ) (ignorables : List Pattern) (p : Place) (c : Nat) (y : Move τ × Ledger τ)
    (r : Option (Fragment τ)) (m : Ledger τ) : Prop :=
  ∀ (x : Move τ × Ledger τ) (K : Memo.Key → Prop), x.1 = y.1 → Mirrors g ignorables p c K x.2 y.2 →
    m.tally.recursionCuts = c →
    (y.1.Plain (p ≤ ·) → ∃ k m₀, Settles g ignorables k x r m₀ ∧ Mirrors g ignorables p c K m₀ m) ∧
      ∀ rule start root, y.1 = .wait (.rule rule start) root →
        ∃ k l₀ l, Settles g ignorables k (x.2.start g ignorables root) r l₀ ∧
          Mirrors g ignorables p c K l₀ l ∧ m = l.closed rule start r

theorem Unfolds.enter {k rule : Nat} (hl : Mirrors g ignorables p c K l₀ l)
    (hcuts : m.tally.recursionCuts = c) (hm : Settles g ignorables k (l.enter g rule) r m)
    (h : Unfolds g ignorables p c (l.enter g rule) r m) :
    ∃ k m₀, Settles g ignorables k (l₀.enter g rule) r m₀ ∧ Mirrors g ignorables p c K m₀ m := by
  cases hroot : g.root? rule with
  | none =>
    rw [Ledger.enter_undefined hroot] at hm ⊢
    obtain ⟨-, rfl, rfl⟩ := hm.answer_inv
    exact ⟨0, l₀, .answer _ _, hl⟩
  | some root =>
    have habsent : l₀.known? (l₀.key rule) = none := Ledger.known?_eq_none hl.free _
    have hfree : (l₀.begun rule).memo = none := Ledger.begun_memo_none hl.free rule
    cases hentry : l.known? (l.key rule) with
    | none =>
      rw [Ledger.enter_absent hroot hentry] at h
      obtain ⟨k, l₀', l', hk, hmirrors, rfl⟩ :=
        (h (_, l₀.begun rule) _ rfl (hl.begun rule) hcuts).2 rule l.reader.place root rfl
      have hleads := hk.leads hfree
      rw [Ledger.begun_reader, hl.reader, hmirrors.reader] at hleads
      refine ⟨_, _, .enter_of_root habsent hroot hk, ?_⟩
      rw [hl.reader]
      exact hmirrors.closed hl.here hroot hleads
    | some entry =>
      cases entry with
      | inProgress =>
        rw [Ledger.enter_inProgress hroot hentry] at hm
        obtain ⟨-, -, rfl⟩ := hm.answer_inv
        exact absurd (hcuts.trans hl.cuts.symm) (Nat.succ_ne_self _)
      | done result stop =>
        rw [Ledger.enter_done hroot hentry] at hm
        obtain ⟨-, rfl, rfl⟩ := hm.answer_inv
        obtain ⟨k, l₁, hk, hreader, hmemo⟩ := hl.finds hroot hentry
        exact ⟨_, _, .enter_of_root habsent hroot hk,
          hl.reuse hentry (Ledger.closed_memo_none hmemo _ _ _) hreader⟩

theorem Unfolds.start {k node : Nat} (hl : Mirrors g ignorables p c K l₀ l)
    (hcuts : m.tally.recursionCuts = c)
    (hm : Settles g ignorables k (l.start g ignorables node) r m)
    (h : Unfolds g ignorables p c (l.start g ignorables node) r m) :
    ∃ k m₀, Settles g ignorables k (l₀.start g ignorables node) r m₀ ∧
      Mirrors g ignorables p c K m₀ m := by
  rcases start_alike g ignorables (Mirrors.congruence g ignorables p c K) hl node with
    ⟨rule, hrule⟩ | halike
  · rw [hrule] at hm h ⊢
    exact h.enter hl hcuts hm
  · exact (h _ K halike.move halike.ledger hcuts).1 (halike.move ▸ halike.plain)

theorem Settles.unfolds {k : Nat} {y : Move τ × Ledger τ} (h : Settles g ignorables k y r m) :
    Unfolds g ignorables p c y r m := by
  induction h with
  | answer r l =>
    rintro ⟨move, l₀⟩ K rfl hl -
    exact ⟨fun _ => ⟨0, l₀, .answer r l₀, hl⟩, fun _ _ _ h => nomatch h⟩
  | @wait i j frame node l l₁ l₂ part result h₁ h₂ ih₁ ih₂ =>
    rintro ⟨move, l₀⟩ K rfl hl hcuts
    -- the number of cuts never falls, so it is the same all along
    have hcuts₁ : l₁.tally.recursionCuts = c := by
      have hl : l.tally.recursionCuts = c := hl.cuts
      have hle₁ := l.cuts_le_start g ignorables node
      have hle₂ := h₁.cuts_le
      have hle₃ := l₁.cuts_le_resume frame part
      have hle₄ := h₂.cuts_le
      omega
    obtain ⟨i', l₁₀, hi', hl₁⟩ := ih₁.start hl hcuts₁ h₁
    constructor
    · intro hplain
      have halike := resume_alike (Mirrors.congruence g ignorables p c K) hl₁ hplain part
      obtain ⟨j', l₂₀, hj', hl₂⟩ :=
        (ih₂ _ K halike.move halike.ledger hcuts).1 (halike.move ▸ halike.plain)
      exact ⟨_, l₂₀, .wait hi' hj', hl₂⟩
    · rintro rule start _ ⟨⟩
      obtain ⟨-, rfl, rfl⟩ := h₂.answer_inv
      exact ⟨i', l₁₀, l₁, hi', hl₁, rfl⟩

/-! ## from the run without a memory to the one with it -/

/-- without a memory, to make any of the attempts `K` takes at least `k` waits -/
def Costly (g : Graph τ) (ignorables : List Pattern) (p : Place) (k : Nat)
    (K : Memo.Key → Prop) : Prop :=
  ∀ {key : Memo.Key} {root j : Nat} {l m : Ledger τ} {r : Option (Fragment τ)}, K key →
    l.memo = none → p ≤ l.reader.place → l.reader.offset = key.offset →
    g.root? key.rule = some root → Settles g ignorables j (l.start g ignorables root) r m → k ≤ j + 1

theorem Costly.mono {k k' : Nat} (h : Costly g ignorables p k' K) (hk : k ≤ k') :
    Costly g ignorables p k K :=
  fun hkey hl hp ho hroot hj => Nat.le_trans hk (h hkey hl hp ho hroot hj)

/-- what is shown of the moves of a run without a memory: if the attempts under way take longer, a
run with a memory that mirrors it comes to the same and cuts nothing off; with a wait for the end of
an attempt, so does the attempt -/
def Carries (g : Graph τ) (ignorables : List Pattern) (p : Place) (c k : Nat)
    (x : Move τ × Ledger τ) (r : Option (Fragment τ)) (m₀ : Ledger τ) : Prop :=
  ∀ (y : Move τ × Ledger τ) (K : Memo.Key → Prop), x.1 = y.1 → Mirrors g ignorables p c K x.2 y.2 →
    Costly g ignorables p k K →
    (x.1.Plain (p ≤ ·) → ∃ k' m, Settles g ignorables k' y r m ∧ Mirrors g ignorables p c K m₀ m) ∧
      ∀ rule start root, x.1 = .wait (.rule rule start) root →
        ∃ k' l l₀, Settles g ignorables k' (y.2.start g ignorables root) r l ∧
          Mirrors g ignorables p c K l₀ l ∧ m₀ = l₀.closed rule start r

theorem Carries.enter {k rule : Nat} (hl : Mirrors g ignorables p c K l₀ l)
    (hcostly : Costly g ignorables p (k + 1) K) (hm : Settles g ignorables k (l₀.enter g rule) r m)
    (h : Carries g ignorables p c k (l₀.enter g rule) r m) :
    ∃ k' m', Settles g ignorables k' (l.enter g rule) r m' ∧ Mirrors g ignorables p c K m m' := by
  cases hroot : g.root? rule with
  | none =>
    rw [Ledger.enter_undefined hroot] at hm ⊢
    obtain ⟨-, rfl, rfl⟩ := hm.answer_inv
    exact ⟨0, l, .answer _ _, hl⟩
  | some root =>
    have hplace : l₀.reader.place = l.reader.place := congrArg _ hl.reader
    have hfree : (l₀.begun rule).memo = none := Ledger.begun_memo_none hl.free rule
    have hbegun : (l₀.begun rule).reader.place = l.reader.place := by
      rw [Ledger.begun_reader, hplace]
    rw [Ledger.enter_absent hroot (Ledger.known?_eq_none hl.free _)] at hm h
    obtain ⟨i, m₀, hi, rfl, rfl⟩ := hm.rule_inv
    have hleads := hi.leads hfree
    rw [hbegun] at hleads
    cases hentry : l.known? (l.key rule) with
    | none =>
      -- the attempt that begins here takes exactly as long as it takes
      have hcostly' : Costly g ignorables p (i + 1) (fun key => K key ∨ key = l.key rule) := by
        intro key root' j l' m' r' hkey hl' hp ho hroot' hj
        rcases hkey with hkey | rfl
        · exact hcostly.mono (Nat.le_succ _) hkey hl' hp ho hroot' hj
        · cases hroot.symm.trans hroot'
          have hsame : l'.reader.place = (l₀.begun rule).reader.place :=
            (Place.le_ext hp hl.here ho).trans hbegun.symm
          have hcost := hi.cost_unique hj hfree hl' hsame
          omega
      obtain ⟨k', l', l₀', hk', hmirrors, hm₀⟩ :=
        (h (_, l.begun rule) _ rfl (hl.begun rule) hcostly').2 rule l₀.reader.place root rfl
      have hreader : m₀.reader = l'.reader := (congrArg Ledger.reader hm₀).trans hmirrors.reader
      rw [hreader] at hleads
      refine ⟨_, _, .enter_of_root hentry hroot hk', ?_⟩
      rw [hm₀, hplace]
      exact hmirrors.closed hl.here hroot hleads
    | some entry =>
      cases entry with
      | inProgress =>
        -- the attempt under way would take longer than it takes
        have hcost := hcostly (hl.pending hentry) hfree (hbegun ▸ hl.here)
          (congrArg Place.offset hbegun) hroot hi
        omega
      | done result stop =>
        obtain ⟨j, l₁, hj, hreader, hmemo⟩ := hl.finds hroot hentry
        obtain ⟨-, rfl, rfl⟩ := hi.unique hj
        rw [Ledger.enter_done hroot hentry]
        exact ⟨0, l.reuse stop, .answer _ _,
          hl.reuse hentry (Ledger.closed_memo_none hmemo _ _ _) hreader⟩

theorem Carries.start {k node : Nat} (hl : Mirrors g ignorables p c K l₀ l)
    (hcostly : Costly g ignorables p (k + 1) K)
    (hm : Settles g ignorables k (l₀.start g ignorables node) r m)
    (h : Carries g ignorables p c k (l₀.start g ignorables node) r m) :
    ∃ k' m', Settles g ignorables k' (l.start g ignorables node) r m' ∧
      Mirrors g ignorables p c K m m' := by
  rcases start_alike g ignorables (Mirrors.congruence g ignorables p c K) hl node with
    ⟨rule, hrule⟩ | halike
  · rw [hrule] at hm h ⊢
    exact h.enter hl hcostly hm
  · exact (h _ K halike.move halike.ledger (hcostly.mono (Nat.le_succ k))).1 halike.plain

theorem Settles.carries {k : Nat} {x : Move τ × Ledger τ} (h : Settles g ignorables k x r m) :
    Carries g ignorables p c k x r m := by
  induction h with
  | answer r l₀ =>
    rintro ⟨move, l⟩ K rfl hl -
    exact ⟨fun _ => ⟨0, l, .answer r l, hl⟩, fun _ _ _ h => nomatch h⟩
  | @wait i j frame node l₀ l₁₀ l₂₀ part result h₁ h₂ ih₁ ih₂ =>
    rintro ⟨move, l⟩ K rfl hl hcostly
    obtain ⟨i', l₁, hi', hl₁⟩ := ih₁.start hl (hcostly.mono (by omega)) h₁
    constructor
    · intro hplain
      have halike := resume_alike (Mirrors.congruence g ignorables p c K) hl₁ hplain part
      obtain ⟨j', l₂, hj', hl₂⟩ :=
        (ih₂ _ K halike.move halike.ledger (hcostly.mono (by omega))).1 halike.plain
      exact ⟨_, l₂, .wait hi' hj', hl₂⟩
    · rintro rule start _ ⟨⟩
      obtain ⟨-, rfl, rfl⟩ := h₂.answer_inv
      exact ⟨i', l₁, l₁₀, hi', hl₁, rfl⟩

end

end

end Packrat
