import Packrat.Proofs.Trace

/-!
# Attempts made again

A run with a memory is followed by a second one, that finds some of the attempts in its own memory
and makes others again.

* `Ledger.Past l F`       `F` is what has become of `l` later;
* `Ledger.Retraces p F`   what a run remembers, `F` remembers too;
* `Spared F D z`          of the attempts `D`, none that was cut short in `F` is made in `z`;
* `Replays`               an attempt comes to the same again, in every run that retraces and spares;
* `Lockstep.inStep`       two runs that make attempts in step parse in step;
* `Follows`               a run makes an attempt, and another one begins with it;
* `Follows.afresh`        they come to the same.
-/

namespace Packrat

section
variable {τ : Type}

/-! ## later runs, and runs that retrace them -/

namespace Ledger

/-- `F` is what has become of `l` later -/
structure Past (l F : Ledger τ) : Prop where
  events : l.events <:+ F.events
  done : ∀ {key result stop}, l.known? key = some (.done result stop) →
    F.known? key = some (.done result stop)

/-- the run has a memory, stands at or after `p`, and what it remembers, `F` remembers too -/
structure Retraces (p : Place) (F z : Ledger τ) : Prop where
  memo : z.memo.isSome = true
  within : z.Within p
  agree : ∀ {key result stop}, z.known? key = some (.done result stop) →
    F.known? key = some (.done result stop)

variable {p : Place} {l l' F z z' : Ledger τ}

theorem Past.refl (l : Ledger τ) : l.Past l := ⟨List.suffix_refl _, id⟩

theorem Past.trans (h : l.Past l') (h' : l'.Past F) : l.Past F :=
  ⟨h.events.trans h'.events, fun hkey => h'.done (h.done hkey)⟩

theorem Extends.past (h : l.Extends p l') (hF : l'.Past F) : l.Past F :=
  Past.trans ⟨h.events, h.known⟩ hF

theorem Past.curtailed (h : l.Past F) : curtailed l.events ⊆ curtailed F.events :=
  curtailed_subset h.events

theorem Past.isDone (h : l.Past F) {key : Memo.Key} (hkey : l.Done key) : F.Done key := by
  obtain ⟨result, stop, hkey⟩ := hkey
  exact ⟨result, stop, h.done hkey⟩

theorem Past.of_closed {rule : Nat} {start : Place} {result : Option (Fragment τ)}
    (hkey : l.known? ⟨start.offset, rule⟩ = some .inProgress)
    (h : (l.closed rule start result).Past F) : l.Past F := by
  refine ⟨(List.suffix_cons _ _).trans h.events, fun {key _ _} hdone => h.done ?_⟩
  have hne : key ≠ ⟨start.offset, rule⟩ := by
    rintro rfl
    rw [hkey] at hdone
    cases hdone
  rwa [known?_closed_of_ne hne]

theorem known?_closed_ne_none {rule : Nat} {start : Place} {result : Option (Fragment τ)}
    {key : Memo.Key} (h : l.known? key ≠ none) :
    (l.closed rule start result).known? key ≠ none := by
  by_cases hne : key = ⟨start.offset, rule⟩
  · obtain ⟨entry, hentry⟩ := Option.ne_none_iff_exists'.mp h
    rw [hne, known?_closed_self (isSome_of_known? hentry)]
    exact Option.some_ne_none _
  · rwa [known?_closed_of_ne hne]

theorem Retraces.congr (h : Retraces p F z) (hmemo : z'.memo = z.memo)
    (hplace : p ≤ z'.reader.place) : Retraces p F z' := by
  have hknown : ∀ key, z'.known? key = z.known? key := by
    intro key
    rw [known?, known?, hmemo]
  refine ⟨hmemo ▸ h.memo, ⟨hplace, fun key result stop hkey => ?_⟩, fun {key _ _} hkey => ?_⟩
  · rw [hknown] at hkey
    exact h.within.stop key result stop hkey
  · rw [hknown] at hkey
    exact h.agree hkey

theorem Retraces.begun (h : Retraces p F z) (rule : Nat) : Retraces p F (z.begun rule) := by
  refine ⟨?_, h.within.begun rule, fun {key _ _} hkey => ?_⟩
  · rw [begun_memo_isSome]
    exact h.memo
  · by_cases hne : key = z.key rule
    · rw [hne, known?_begun_self h.memo] at hkey
      cases hkey
    · rw [known?_begun_of_ne hne] at hkey
      exact h.agree hkey

theorem Retraces.closed (h : Retraces p F z) {rule : Nat} {start : Place}
    {result : Option (Fragment τ)}
    (hkey : F.known? ⟨start.offset, rule⟩ = some (.done result z.reader.place)) :
    Retraces p F (z.closed rule start result) := by
  have hknown : ∀ {key r q}, (z.closed rule start result).known? key = some (.done r q) →
      F.known? key = some (.done r q) ∧ p ≤ q := by
    intro key r q hdone
    by_cases hne : key = ⟨start.offset, rule⟩
    · rw [hne, known?_closed_self h.memo] at hdone
      cases hdone
      rw [hne]
      exact ⟨hkey, h.within.here⟩
    · rw [known?_closed_of_ne hne] at hdone
      exact ⟨h.agree hdone, h.within.stop _ _ _ hdone⟩
  refine ⟨?_, ⟨h.within.here, fun key r q hdone => (hknown hdone).2⟩, fun hdone => (hknown hdone).1⟩
  rw [closed_memo_isSome]
  exact h.memo

end Ledger

/-- of the attempts `D`, none that was cut short in `F` is made in `z` -/
def Spared (F : Ledger τ) (D : Memo.Key → Prop) (z : Ledger τ) : Prop :=
  ∀ key, D key → key ∈ curtailed F.events → z.known? key = none

theorem Spared.of_extends {p : Place} {F z z' : Ledger τ} {D : Memo.Key → Prop}
    (h : Spared F D z') (hz : z.Extends p z') : Spared F D z := by
  intro key hD hkey
  cases hentry : z.known? key with
  | none => rfl
  | some entry => exact (hz.known hentry).symm.trans (h key hD hkey)

theorem Spared.of_closed {F z : Ledger τ} {D : Memo.Key → Prop} {rule : Nat} {start : Place}
    {result : Option (Fragment τ)} (h : Spared F D (z.closed rule start result)) : Spared F D z := by
  intro key hD hkey
  refine Classical.byContradiction fun hknown => ?_
  exact Ledger.known?_closed_ne_none hknown (h key hD hkey)

/-- an attempt comes to the same again, in every run that retraces a later one and has none of the
attempts `D` under way; these were over when it was -/
structure Replays (g : Graph τ) (ignorables : List Pattern) (p : Place) (D : Memo.Key → Prop)
    (l : Ledger τ) (key : Memo.Key) : Prop where
  done : ∀ {other}, D other → l.Done other
  again : ∀ {F z z' : Ledger τ} {k : Nat} {r : Option (Fragment τ)}, l.Past F →
    Ledger.Retraces p F z → z.reader.offset = key.offset →
    (∀ {other}, z.known? other = some .inProgress → ¬ D other) →
    Settles g ignorables k (z.enter g key.rule) r z' → Spared F D z' →
    Ledger.Retraces p F z' ∧ ∀ {other}, z'.known? other ≠ none → z.known? other ≠ none ∨ D other

theorem Replays.past {g : Graph τ} {ignorables : List Pattern} {p : Place} {D : Memo.Key → Prop}
    {l l' : Ledger τ} {key : Memo.Key} (h : Replays g ignorables p D l key) (hl : l.Past l') :
    Replays g ignorables p D l' key where
  done hother := hl.isDone (h.done hother)
  again hF := h.again (hl.trans hF)

theorem Ledger.Retraces.enter_done {g : Graph τ} {ignorables : List Pattern} {p : Place}
    {F z z' : Ledger τ} {rule root k : Nat} {r result : Option (Fragment τ)} {stop : Place}
    (hz : Ledger.Retraces p F z) (hroot : g.root? rule = some root)
    (hentry : z.known? (z.key rule) = some (.done result stop))
    (h : Settles g ignorables k (z.enter g rule) r z') :
    Ledger.Retraces p F z' ∧ ∀ {other}, z'.known? other ≠ none → z.known? other ≠ none := by
  have hwithin := (h.extends_enter hz.within).within
  rw [Ledger.enter_done hroot hentry] at h
  obtain ⟨-, rfl, rfl⟩ := h.answer_inv
  exact ⟨hz.congr rfl hwithin.here, id⟩

/-- everything that is over can be made again -/
def Repeatable (g : Graph τ) (ignorables : List Pattern) (p : Place) (l : Ledger τ) : Prop :=
  ∀ key, l.Done key → ∃ D, Replays g ignorables p D l key

/-- **An attempt comes to what is remembered of it**, whether the run that retraces remembers it too
or makes it again. -/
theorem Ledger.Retraces.enter {g : Graph τ} {ignorables : List Pattern} {p : Place}
    {l F z z' : Ledger τ} {rule root k : Nat} {r r' : Option (Fragment τ)} {stop : Place}
    (hz : Ledger.Retraces p F z) (hl : l.Past F) (hagain : Repeatable g ignorables p l)
    (hopened : ∀ {other}, z.known? other = some .inProgress → ¬ l.Done other)
    (hroot : g.root? rule = some root) (hkey : F.known? (z.key rule) = some (.done r stop))
    (hnot : z.known? (z.key rule) ≠ some .inProgress)
    (hdone : z.known? (z.key rule) = none → l.Done (z.key rule))
    (h : Settles g ignorables k (z.enter g rule) r' z') (hspared : Spared F l.Done z') :
    r = r' ∧ z'.reader.place = stop ∧ Ledger.Retraces p F z' ∧
      ∀ {other}, z'.known? other ≠ none → z.known? other ≠ none ∨ l.Done other := by
  have hz' := h.known_enter hz.within hz.memo hroot hnot
  have hstep : Ledger.Retraces p F z' ∧
      ∀ {other}, z'.known? other ≠ none → z.known? other ≠ none ∨ l.Done other := by
    cases hentry : z.known? (z.key rule) with
    | none =>
      obtain ⟨D, hD⟩ := hagain _ (hdone hentry)
      obtain ⟨hretraces, hknown⟩ := hD.again hl hz rfl
        (fun hother hDother => hopened hother (hD.done hDother)) h
        fun other hDother => hspared other (hD.done hDother)
      exact ⟨hretraces, fun hother => (hknown hother).imp_right hD.done⟩
    | some entry =>
      cases entry with
      | inProgress => exact absurd hentry hnot
      | done result stop =>
        obtain ⟨hretraces, hknown⟩ := hz.enter_done hroot hentry h
        exact ⟨hretraces, fun hother => .inl (hknown hother)⟩
  -- both runs remember the attempt now, and they agree on what they remember
  have hsame := (hstep.1.agree hz').symm.trans hkey
  cases hsame
  exact ⟨rfl, rfl, hstep⟩

/-! ## two runs in step -/

/-- runs in `R i` that start the same parser come to the same result, and stay in `R i`, if their
ends have `C` -/
def InStep {ι : Type} (g : Graph τ) (ignorables : List Pattern)
    (R : ι → Ledger τ → Ledger τ → Prop) (C : Ledger τ → Ledger τ → Prop) (k : Nat) : Prop :=
  ∀ (i : ι) {x z x' z' : Ledger τ} {node k' : Nat} {r r' : Option (Fragment τ)}, R i x z →
    Settles g ignorables k (x.start g ignorables node) r x' →
    Settles g ignorables k' (z.start g ignorables node) r' z' → C x' z' → r = r' ∧ R i x' z'

/-- the same for runs that make an attempt at the same rule -/
def EnterInStep {ι : Type} (g : Graph τ) (ignorables : List Pattern)
    (R : ι → Ledger τ → Ledger τ → Prop) (C : Ledger τ → Ledger τ → Prop) (k : Nat) : Prop :=
  ∀ (i : ι) {x z x' z' : Ledger τ} {rule k' : Nat} {r r' : Option (Fragment τ)}, R i x z →
    Settles g ignorables k (x.enter g rule) r x' →
    Settles g ignorables k' (z.enter g rule) r' z' → C x' z' → r = r' ∧ R i x' z'

/-- a relation of runs that plain moves keep, and a condition on their ends that held all along -/
structure Lockstep {ι : Type} (p : Place) (R : ι → Ledger τ → Ledger τ → Prop)
    (C : Ledger τ → Ledger τ → Prop) : Prop where
  congruence : ∀ i, Congruence (R i) (p ≤ ·)
  left : ∀ {i x z}, R i x z → x.Within p
  right : ∀ {i x z}, R i x z → z.Within p
  back : ∀ {x z x' z' : Ledger τ}, C x' z' → x.Extends p x' → z.Extends p z' → C x z

namespace Lockstep
variable {ι : Type} {g : Graph τ} {ignorables : List Pattern} {p : Place}
  {R : ι → Ledger τ → Ledger τ → Prop} {C : Ledger τ → Ledger τ → Prop} {k : Nat}

/-- plain moves go on in step, if the parts do that they wait for -/
theorem moves (hR : Lockstep p R C) (hparts : ∀ j < k, InStep g ignorables R C j) {i : ι}
    {m n : Move τ × Ledger τ} {x' z' : Ledger τ} {k' : Nat} {r r' : Option (Fragment τ)}
    (hmn : Alike (R i) (p ≤ ·) m n) (hx : Settles g ignorables k m r x')
    (hz : Settles g ignorables k' n r' z') (hC : C x' z') : r = r' ∧ R i x' z' := by
  -- a wait takes longer than its part, and longer than what comes after it
  induction k using Nat.strongRecOn generalizing m n k' with
  | ind k ih =>
    obtain ⟨move, x⟩ := m
    obtain ⟨move', z⟩ := n
    obtain ⟨heq, hplain, hxz⟩ := hmn
    cases heq
    cases move with
    | answer result =>
      obtain ⟨-, rfl, rfl⟩ := hx.answer_inv
      obtain ⟨-, rfl, rfl⟩ := hz.answer_inv
      exact ⟨rfl, hxz⟩
    | wait frame node =>
      obtain ⟨a, b, part, x₁, hx₁, hx₂, rfl⟩ := hx.wait_inv
      obtain ⟨a', b', part', z₁, hz₁, hz₂, rfl⟩ := hz.wait_inv
      have hxe := hx₂.extends_resume (hx₁.extends_start (hR.left hxz)).within hplain
      have hze := hz₂.extends_resume (hz₁.extends_start (hR.right hxz)).within hplain
      obtain ⟨rfl, hxz₁⟩ := hparts a (by omega) i hxz hx₁ hz₁ (hR.back hC hxe hze)
      exact ih b (by omega) (fun j hj => hparts j (by omega))
        (resume_alike (hR.congruence i) hxz₁ hplain part) hx₂ hz₂

/-- **Runs that make attempts in step parse in step.** -/
theorem inStep (hR : Lockstep p R C) {n : Nat}
    (henter : ∀ k < n, (∀ j < k, InStep g ignorables R C j) → EnterInStep g ignorables R C k) :
    ∀ k < n, InStep g ignorables R C k := by
  intro k hk
  induction k using Nat.strongRecOn with
  | ind k ih =>
    have hparts : ∀ j < k, InStep g ignorables R C j := fun j hj => ih j hj (Nat.lt_trans hj hk)
    intro i x z x' z' node k' r r' hxz hx hz hC
    rcases start_alike g ignorables (hR.congruence i) hxz node with ⟨rule, hrule⟩ | halike
    · rw [hrule] at hx hz
      exact henter k hk hparts i hxz hx hz hC
    · exact hR.moves hparts halike hx hz hC

end Lockstep

/-! ## an attempt and its repetition -/

/-- what is asked of the ends of two runs: the first one becomes `F`, and in the second none of the
attempts `D` is made that was cut short -/
def Ends (F : Ledger τ) (D : Memo.Key → Prop) (x z : Ledger τ) : Prop :=
  x.Past F ∧ Spared F D z

/-- the attempt `d` was begun in a run that was `l` before, inside the attempts `outer`; now `x` is
that run and `z` another one, begun with the same attempt; both have the attempts `inner` under way
since -/
structure Follows (p : Place) (l : Ledger τ) (d : Memo.Key) (outer : List Memo.Key) (F : Ledger τ)
    (inner : List Memo.Key) (x z : Ledger τ) : Prop where
  place : x.reader.place = z.reader.place
  tune : x.InTune
  within : x.Within p
  stack : underWay x.events = inner ++ d :: outer
  retraces : Ledger.Retraces p F z
  opened : ∀ {key}, z.known? key = some .inProgress ↔ key ∈ inner ∨ key = d
  base : ∀ {key entry}, l.known? key = some entry → x.known? key = some entry
  unknown : ∀ {key}, key ∈ inner ∨ key = d → l.known? key = none
  made : ∀ {key}, x.Done key → l.known? key = none → z.Done key
  known : ∀ {key}, z.known? key ≠ none → x.known? key ≠ none

namespace Follows
variable {p : Place} {l : Ledger τ} {d : Memo.Key} {outer : List Memo.Key} {F : Ledger τ}
  {inner : List Memo.Key} {x z : Ledger τ}

theorem congruence (p : Place) (l : Ledger τ) (d : Memo.Key) (outer : List Memo.Key)
    (F : Ledger τ) (inner : List Memo.Key) : Congruence (Follows p l d outer F inner) (p ≤ ·) where
  same h := h.place
  here h := h.within.here
  moveTo h hq :=
    { h with
      place := rfl
      tune := { h.tune with }
      within := ⟨hq, h.within.stop⟩
      retraces := h.retraces.congr rfl hq }
  readTo h hq :=
    { h with
      place := rfl
      tune := { h.tune with }
      within := ⟨Place.le_trans h.within.here hq, h.within.stop⟩
      retraces := h.retraces.congr rfl (Place.le_trans h.within.here hq) }
  count _ _ h :=
    { h with
      tune := { h.tune with }
      within := ⟨h.within.here, h.within.stop⟩
      retraces := h.retraces.congr rfl h.retraces.within.here }
  note _ he h :=
    { h with
      tune := h.tune.note_plain he
      within := ⟨h.within.here, h.within.stop⟩
      stack := (underWay_of_plain he _).trans h.stack
      retraces := h.retraces.congr rfl h.retraces.within.here }

theorem key_eq (h : Follows p l d outer F inner x z) (rule : Nat) : z.key rule = x.key rule :=
  Ledger.key_congr h.place.symm rule

theorem cutOff (h : Follows p l d outer F inner x z) (rule : Nat) :
    Follows p l d outer F inner (x.cutOff rule) (z.cutOff rule) :=
  { h with
    tune := h.tune.cutOff rule
    within := ⟨h.within.here, h.within.stop⟩
    retraces := h.retraces.congr rfl h.retraces.within.here }

theorem reuse (h : Follows p l d outer F inner x z) {stop : Place} {z' : Ledger τ}
    (hstop : p ≤ stop) (hplace : z'.reader.place = stop) (hz : z.Extends p z')
    (hretraces : Ledger.Retraces p F z')
    (hknown : ∀ {key}, z'.known? key ≠ none → z.known? key ≠ none ∨ l.Done key) :
    Follows p l d outer F inner (x.reuse stop) z' where
  place := hplace.symm
  tune := { h.tune with }
  within := ⟨hstop, h.within.stop⟩
  stack := h.stack
  retraces := hretraces
  opened := ⟨fun hkey => h.opened.mp (hz.inProgress hkey), fun hkey => hz.known (h.opened.mpr hkey)⟩
  base := h.base
  unknown := h.unknown
  made hx hl := by
    obtain ⟨r, q, hkey⟩ := h.made hx hl
    exact ⟨r, q, hz.known hkey⟩
  known hkey := by
    rcases hknown hkey with hkey | ⟨r, q, hkey⟩
    · exact h.known hkey
    · show x.known? _ ≠ none
      rw [h.base hkey]
      exact Option.some_ne_none _

theorem begun (h : Follows p l d outer F inner x z) {rule : Nat}
    (habsent : x.known? (x.key rule) = none) :
    Follows p l d outer F (x.key rule :: inner) (x.begun rule) (z.begun rule) := by
  have hkey := h.key_eq rule
  have hbase : l.known? (x.key rule) = none := by
    cases hentry : l.known? (x.key rule) with
    | none => rfl
    | some entry => exact (h.base hentry).symm.trans habsent
  refine ⟨?_, h.tune.begun habsent, h.within.begun rule, ?_, h.retraces.begun rule, ?_, ?_, ?_, ?_, ?_⟩
  · rw [Ledger.begun_reader, Ledger.begun_reader]
    exact h.place
  · rw [Ledger.begun_events]
    show x.key rule :: underWay x.events = _
    rw [h.stack]
    rfl
  · intro key
    by_cases hne : key = x.key rule
    · rw [hne, ← hkey, Ledger.known?_begun_self h.retraces.memo]
      exact ⟨fun _ => .inl List.mem_cons_self, fun _ => rfl⟩
    · rw [Ledger.known?_begun_of_ne (hkey ▸ hne), h.opened, List.mem_cons, or_assoc]
      exact ⟨.inr, fun hor => hor.resolve_left hne⟩
  · intro key entry hentry
    rw [Ledger.known?_begun_of_ne]
    · exact h.base hentry
    · rintro rfl
      rw [hbase] at hentry
      cases hentry
  · intro key hor
    rw [List.mem_cons, or_assoc] at hor
    rcases hor with rfl | hor
    · exact hbase
    · exact h.unknown hor
  · rintro key ⟨r, q, hdone⟩ hl
    have hne : key ≠ x.key rule := by
      rintro rfl
      rw [Ledger.known?_begun_self h.tune.memo] at hdone
      cases hdone
    rw [Ledger.known?_begun_of_ne hne] at hdone
    obtain ⟨r', q', hz⟩ := h.made ⟨r, q, hdone⟩ hl
    exact ⟨r', q', (Ledger.known?_begun_of_ne (hkey ▸ hne)).trans hz⟩
  · intro key hz
    by_cases hne : key = x.key rule
    · rw [hne, Ledger.known?_begun_self h.tune.memo]
      exact Option.some_ne_none _
    · rw [Ledger.known?_begun_of_ne (hkey ▸ hne)] at hz
      rw [Ledger.known?_begun_of_ne hne]
      exact h.known hz

theorem closed {rule : Nat} {start : Place} {result : Option (Fragment τ)}
    (h : Follows p l d outer F (⟨start.offset, rule⟩ :: inner) x z)
    (hF : (x.closed rule start result).Past F) :
    Follows p l d outer F inner (x.closed rule start result) (z.closed rule start result) := by
  have hself := Ledger.known?_closed_self h.tune.memo rule start result
  have hself' := Ledger.known?_closed_self h.retraces.memo rule start result
  have hnodup := h.tune.nodup
  rw [h.stack, List.cons_append] at hnodup
  have hkey := (List.nodup_cons.mp hnodup).1
  refine ⟨h.place, h.tune.closed h.stack result, ⟨h.within.here, ?_⟩, ?_, h.retraces.closed ?_, ?_, ?_,
    ?_, ?_, ?_⟩
  · intro key r q hdone
    by_cases hne : key = ⟨start.offset, rule⟩
    · rw [hne, hself] at hdone
      cases hdone
      exact h.within.here
    · rw [Ledger.known?_closed_of_ne hne] at hdone
      exact h.within.stop key r q hdone
  · show (underWay x.events).tail = _
    rw [h.stack]
    rfl
  · rw [← h.place]
    exact hF.done hself
  · intro key
    by_cases hne : key = ⟨start.offset, rule⟩
    · rw [hne, hself']
      refine ⟨fun he => (nomatch he), fun hor => absurd ?_ hkey⟩
      rcases hor with hmem | rfl
      · exact List.mem_append_left _ hmem
      · exact List.mem_append_right _ List.mem_cons_self
    · rw [Ledger.known?_closed_of_ne hne, h.opened, List.mem_cons, or_assoc]
      exact ⟨fun hor => hor.resolve_left hne, .inr⟩
  · intro key entry hentry
    rw [Ledger.known?_closed_of_ne]
    · exact h.base hentry
    · rintro rfl
      rw [h.unknown (.inl List.mem_cons_self)] at hentry
      cases hentry
  · exact fun hor => h.unknown (hor.imp_left (List.mem_cons_of_mem _))
  · rintro key ⟨r, q, hdone⟩ hl
    by_cases hne : key = ⟨start.offset, rule⟩
    · exact hne ▸ ⟨result, _, hself'⟩
    · rw [Ledger.known?_closed_of_ne hne] at hdone
      obtain ⟨r', q', hz⟩ := h.made ⟨r, q, hdone⟩ hl
      exact ⟨r', q', (Ledger.known?_closed_of_ne hne _).trans hz⟩
  · intro key hz
    by_cases hne : key = ⟨start.offset, rule⟩
    · rw [hne, hself]
      exact Option.some_ne_none _
    · rw [Ledger.known?_closed_of_ne hne] at hz ⊢
      exact h.known hz

theorem first (hl : l.InTune) (hwithin : l.Within p) {rule : Nat}
    (habsent : l.known? (l.key rule) = none) (hmemo : z.memo.isSome = true)
    (hz : ∀ key, z.known? key = none) (hplace : z.reader.place = l.reader.place) :
    Follows p l (l.key rule) (underWay l.events) F [] (l.begun rule) (z.begun rule) := by
  have hkey : z.key rule = l.key rule := Ledger.key_congr hplace rule
  have hblank : ∀ {key}, key ≠ l.key rule → (z.begun rule).known? key = none := by
    intro key hne
    rw [Ledger.known?_begun_of_ne (hkey ▸ hne), hz]
  have hretraces : Ledger.Retraces p F z := by
    refine ⟨hmemo, ⟨hplace ▸ hwithin.here, fun key r q hdone => ?_⟩, fun {key r q} hdone => ?_⟩
    · rw [hz] at hdone
      cases hdone
    · rw [hz] at hdone
      cases hdone
  refine ⟨?_, hl.begun habsent, hwithin.begun rule, ?_, hretraces.begun rule, ?_, ?_, ?_, ?_, ?_⟩
  · rw [Ledger.begun_reader, Ledger.begun_reader]
    exact hplace.symm
  · rw [Ledger.begun_events]
    rfl
  · intro key
    by_cases hne : key = l.key rule
    · rw [hne, ← hkey, Ledger.known?_begun_self hmemo]
      exact ⟨fun _ => .inr rfl, fun _ => rfl⟩
    · rw [hblank hne]
      exact ⟨fun he => (nomatch he), fun hor => absurd (hor.resolve_left List.not_mem_nil) hne⟩
  · intro key entry hentry
    rw [Ledger.known?_begun_of_ne]
    · exact hentry
    · rintro rfl
      rw [habsent] at hentry
      cases hentry
  · intro key hor
    rw [hor.resolve_left List.not_mem_nil]
    exact habsent
  · rintro key ⟨r, q, hdone⟩ hnone
    by_cases hne : key = l.key rule
    · rw [hne, Ledger.known?_begun_self hl.memo] at hdone
      cases hdone
    · rw [Ledger.known?_begun_of_ne hne, hnone] at hdone
      cases hdone
  · intro key hknown
    by_cases hne : key = l.key rule
    · rw [hne, Ledger.known?_begun_self hl.memo]
      exact Option.some_ne_none _
    · exact absurd (hblank hne) hknown

/-! ### attempts in step -/

section
variable {g : Graph τ} {ignorables : List Pattern} {rule root k : Nat} {r r' : Option (Fragment τ)}
  {z' : Ledger τ}

theorem lockstep (p : Place) (l : Ledger τ) (d : Memo.Key) (outer : List Memo.Key) (F : Ledger τ) :
    Lockstep p (Follows p l d outer F) (Ends F l.Done) where
  congruence := congruence p l d outer F
  left h := h.within
  right h := h.retraces.within
  back hC hx hz := ⟨hx.past hC.1, hC.2.of_extends hz⟩

/-- an attempt that is cut off was begun with `d` or after it, if `d` is not cut short -/
theorem inProgress (h : Follows p l d outer F inner x z) (hd : d ∉ curtailed F.events)
    (hF : (x.cutOff rule).Past F) : z.known? (z.key rule) = some .inProgress := by
  rw [h.key_eq, h.opened]
  refine Classical.byContradiction fun hnew => hd (hF.curtailed ?_)
  exact mem_curtailed_cut h.stack (fun hinner => hnew (.inl hinner)) fun hd => hnew (.inr hd)

theorem not_inProgress (h : Follows p l d outer F inner x z) {stop : Place}
    (hkey : x.known? (x.key rule) = some (.done r stop)) :
    z.known? (z.key rule) ≠ some .inProgress := by
  rw [h.key_eq]
  intro hopened
  have hmem : x.key rule ∈ underWay x.events := by
    rw [h.stack]
    rcases h.opened.mp hopened with hinner | hd
    · exact List.mem_append_left _ hinner
    · exact hd ▸ List.mem_append_right _ List.mem_cons_self
  rw [← h.tune.inProgress, hkey] at hmem
  cases hmem

/-- where one run takes a result from memory, the other does so too, or makes an attempt again that
was over before `d` began -/
theorem recalled (h : Follows p l d outer F inner x z) (hl : l.Past F)
    (hagain : Repeatable g ignorables p l) {stop : Place} (hroot : g.root? rule = some root)
    (hkey : x.known? (x.key rule) = some (.done r stop)) (hF : x.Past F)
    (hz : Settles g ignorables k (z.enter g rule) r' z') (hspared : Spared F l.Done z') :
    r = r' ∧ Follows p l d outer F inner (x.reuse stop) z' := by
  have hopened : ∀ {other}, z.known? other = some .inProgress → ¬ l.Done other := by
    rintro other hother ⟨_, _, hknown⟩
    rw [h.unknown (h.opened.mp hother)] at hknown
    cases hknown
  -- what has come of attempts since `d` began is known in both runs
  have hdone : z.known? (z.key rule) = none → l.Done (z.key rule) := by
    rw [h.key_eq]
    intro hentry
    cases hbase : l.known? (x.key rule) with
    | none =>
      obtain ⟨_, _, hmade⟩ := h.made ⟨r, stop, hkey⟩ hbase
      rw [hmade] at hentry
      cases hentry
    | some entry => exact ⟨r, stop, hbase.trans ((h.base hbase).symm.trans hkey)⟩
  obtain ⟨hr, hplace, hretraces, hknown⟩ := h.retraces.enter hl hagain hopened hroot
    (h.key_eq rule ▸ hF.done hkey) (h.not_inProgress hkey) hdone hz hspared
  exact ⟨hr, h.reuse (h.within.stop _ _ _ hkey) hplace (hz.extends_enter h.retraces.within)
    hretraces hknown⟩

theorem attempted {x' : Ledger τ} {k' : Nat}
    (hparts : ∀ j < k, InStep g ignorables (Follows p l d outer F) (Ends F l.Done) j)
    (h : Follows p l d outer F inner x z) (hroot : g.root? rule = some root)
    (habsent : x.known? (x.key rule) = none) (hx : Settles g ignorables k (x.enter g rule) r x')
    (hz : Settles g ignorables k' (z.enter g rule) r' z') (hends : Ends F l.Done x' z') :
    r = r' ∧ Follows p l d outer F inner x' z' := by
  have habsent' : z.known? (z.key rule) = none := by
    rw [h.key_eq]
    exact Classical.byContradiction fun hknown => h.known hknown habsent
  rw [Ledger.enter_absent hroot habsent] at hx
  rw [Ledger.enter_absent hroot habsent'] at hz
  obtain ⟨i, x₁, hx₁, rfl, rfl⟩ := hx.rule_inv
  obtain ⟨i', z₁, hz₁, rfl, rfl⟩ := hz.rule_inv
  have hbegun := h.begun habsent
  have hopen : x₁.known? (x.key rule) = some .inProgress :=
    (hx₁.extends_start hbegun.within).known (Ledger.known?_begun_self h.tune.memo rule)
  obtain ⟨rfl, hfollows⟩ := hparts i (Nat.lt_succ_self i) _ hbegun hx₁ hz₁
    ⟨.of_closed hopen hends.1, hends.2.of_closed⟩
  rw [← h.place]
  exact ⟨rfl, hfollows.closed hends.1⟩

/-- **An attempt that is not cut short is made in step** with the same attempt at the beginning of
another run, if that run makes none that was cut short before. -/
theorem inStep (hl : l.Past F) (hd : d ∉ curtailed F.events)
    (hagain : Repeatable g ignorables p l) (k : Nat) :
    InStep g ignorables (Follows p l d outer F) (Ends F l.Done) k := by
  refine (lockstep p l d outer F).inStep (fun k _ hparts => ?_) k (Nat.lt_succ_self k)
  intro inner x z x' z' rule k' r r' h hx hz hends
  cases hroot : g.root? rule with
  | none =>
    rw [Ledger.enter_undefined hroot] at hx hz
    obtain ⟨-, rfl, rfl⟩ := hx.answer_inv
    obtain ⟨-, rfl, rfl⟩ := hz.answer_inv
    exact ⟨rfl, h⟩
  | some root =>
    cases hentry : x.known? (x.key rule) with
    | none => exact h.attempted hparts hroot hentry hx hz hends
    | some entry =>
      cases entry with
      | inProgress =>
        rw [Ledger.enter_inProgress hroot hentry] at hx
        obtain ⟨-, rfl, rfl⟩ := hx.answer_inv
        rw [Ledger.enter_inProgress hroot (h.inProgress hd hends.1)] at hz
        obtain ⟨-, rfl, rfl⟩ := hz.answer_inv
        exact ⟨rfl, h.cutOff rule⟩
      | done result stop =>
        rw [Ledger.enter_done hroot hentry] at hx
        obtain ⟨-, rfl, rfl⟩ := hx.answer_inv
        exact h.recalled hl hagain hroot hentry ⟨hends.1.events, hends.1.done⟩ hz hends.2

/-- **A run that begins with an attempt comes to what came of it in another run**, if it was not cut
short there, and nothing is made again that had been cut short before. -/
theorem afresh {i : Nat} {l₁ : Ledger τ} (hl : l.InTune) (hwithin : l.Within p)
    (hagain : Repeatable g ignorables p l) (habsent : l.known? (l.key rule) = none)
    (hroot : g.root? rule = some root)
    (hx : Settles g ignorables i ((l.begun rule).start g ignorables root) r l₁)
    (hF : (l₁.closed rule l.reader.place r).Past F) (hlong : l.key rule ∉ curtailed F.events)
    (hmemo : z.memo.isSome = true) (hz : ∀ key, z.known? key = none)
    (hplace : z.reader.place = l.reader.place)
    (hsettles : Settles g ignorables k (z.enter g rule) r' z') (hspared : Spared F l.Done z') :
    r' = r ∧ z'.reader.place = l₁.reader.place := by
  have hextends := hx.extends_start (hwithin.begun rule)
  have hopen : l₁.known? (l.key rule) = some .inProgress :=
    hextends.known (Ledger.known?_begun_self hl.memo rule)
  have hbefore : l.Past F := by
    have hclosed := Ledger.Extends.attempted habsent hextends r
    exact hclosed.past hF
  rw [Ledger.enter_absent hroot (hz _)] at hsettles
  obtain ⟨i', z₁, hz₁, rfl, -⟩ := hsettles.rule_inv
  obtain ⟨rfl, hfollows⟩ := inStep hbefore hlong hagain i []
    (first hl hwithin habsent hmemo hz hplace) hx hz₁ ⟨.of_closed hopen hF, hspared.of_closed⟩
  exact ⟨rfl, hfollows.place.symm⟩

end

end Follows

end

end Packrat
