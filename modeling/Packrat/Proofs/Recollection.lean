import Packrat.Proofs.Replay
import Packrat.Proofs.Termination

/-!
# What is remembered, and what would come of it now

* `Afresh`              what is remembered of an attempt is what a run comes to that begins with it;
* `Faithful`            a memory in which that holds of every attempt, and every one can be repeated;
* `Echoes`              a run makes an attempt again that another one makes for the first time;
* `Keeps`               an attempt leaves a faithful memory faithful;
* `Ledger.Serves.faithful`   so a session does;
* `remembered_afresh`   what a session remembers of an attempt that was not cut short is what a
                        machine comes to that has parsed nothing yet.

An attempt that is cut short ends with what the cut has made of it, and this is remembered like any
other result: see `Entangled.remembered_otherwise`.
-/

namespace Packrat

section
variable {τ : Type} {g : Graph τ} {ignorables : List Pattern} {p : Place}

/-- what is remembered of an attempt is what a run comes to that begins with it, at the same place, if
the attempt was not cut short and the run makes none again that had been cut short before -/
def Afresh (g : Graph τ) (ignorables : List Pattern) (p : Place) (l : Ledger τ) (key : Memo.Key)
    (result : Option (Fragment τ)) (stop : Place) : Prop :=
  ∃ place, p ≤ place ∧ place.offset = key.offset ∧
    ∀ {F z z' : Ledger τ} {k : Nat} {r : Option (Fragment τ)}, l.Past F →
      key ∉ curtailed F.events → z.memo.isSome = true → (∀ key, z.known? key = none) →
      z.reader.place = place → Settles g ignorables k (z.enter g key.rule) r z' →
      Spared F (· ∈ ended (before key F.events)) z' → r = result ∧ z'.reader.place = stop

theorem Afresh.past {l l' : Ledger τ} {key : Memo.Key} {result : Option (Fragment τ)} {stop : Place}
    (h : Afresh g ignorables p l key result stop) (hl : l.Past l') :
    Afresh g ignorables p l' key result stop := by
  obtain ⟨place, hplace, hoffset, h⟩ := h
  exact ⟨place, hplace, hoffset, fun hF => h (hl.trans hF)⟩

/-- the events tell what is remembered; every attempt that is over can be made again, and is
remembered as it comes out afresh -/
structure Faithful (g : Graph τ) (ignorables : List Pattern) (p : Place) (l : Ledger τ) : Prop where
  tune : l.InTune
  within : l.Within p
  again : Repeatable g ignorables p l
  afresh : ∀ {key result stop}, l.known? key = some (.done result stop) →
    Afresh g ignorables p l key result stop

namespace Faithful
variable {l l' : Ledger τ}

theorem past (h : Faithful g ignorables p l) (hl : l.Past l')
    (hdone : ∀ {key result stop}, l'.known? key = some (.done result stop) →
      l.known? key = some (.done result stop))
    (htune : l'.InTune) (hwithin : l'.Within p) : Faithful g ignorables p l' where
  tune := htune
  within := hwithin
  again := by
    rintro key ⟨result, stop, hkey⟩
    obtain ⟨D, hD⟩ := h.again key ⟨result, stop, hdone hkey⟩
    exact ⟨D, hD.past hl⟩
  afresh hkey := (h.afresh (hdone hkey)).past hl

theorem congruence (g : Graph τ) (ignorables : List Pattern) (p : Place) :
    Congruence (fun l l' => l = l' ∧ Faithful g ignorables p l) (p ≤ ·) where
  same h := congrArg (·.reader.place) h.1
  here h := h.2.within.here
  moveTo := by
    rintro l _ q ⟨rfl, h⟩ hq
    exact ⟨rfl, h.past ⟨List.suffix_refl _, id⟩ id { h.tune with } ⟨hq, h.within.stop⟩⟩
  readTo := by
    rintro l _ q ⟨rfl, h⟩ hq
    exact ⟨rfl, h.past ⟨List.suffix_refl _, id⟩ id { h.tune with }
      ⟨Place.le_trans h.within.here hq, h.within.stop⟩⟩
  count := by
    rintro l _ f hf ⟨rfl, h⟩
    exact ⟨rfl, h.past ⟨List.suffix_refl _, id⟩ id { h.tune with } ⟨h.within.here, h.within.stop⟩⟩
  note := by
    rintro l _ e he ⟨rfl, h⟩
    exact ⟨rfl, h.past ⟨List.suffix_cons _ _, id⟩ id (h.tune.note_plain he)
      ⟨h.within.here, h.within.stop⟩⟩

theorem reuse (h : Faithful g ignorables p l) {stop : Place} (hstop : p ≤ stop) :
    Faithful g ignorables p (l.reuse stop) :=
  h.past ⟨List.suffix_refl _, id⟩ id { h.tune with } ⟨hstop, h.within.stop⟩

theorem cutOff (h : Faithful g ignorables p l) (rule : Nat) :
    Faithful g ignorables p (l.cutOff rule) :=
  h.past ⟨List.suffix_cons _ _, id⟩ id (h.tune.cutOff rule) ⟨h.within.here, h.within.stop⟩

theorem begun (h : Faithful g ignorables p l) {rule : Nat}
    (habsent : l.known? (l.key rule) = none) : Faithful g ignorables p (l.begun rule) := by
  refine h.past ⟨?_, fun {key _ _} hkey => ?_⟩ (fun {key _ _} hkey => ?_) (h.tune.begun habsent)
    (h.within.begun rule)
  · rw [Ledger.begun_events]
    exact List.suffix_cons _ _
  · rw [Ledger.known?_begun_of_ne]
    · exact hkey
    · rintro rfl
      rw [habsent] at hkey
      cases hkey
  · by_cases hne : key = l.key rule
    · rw [hne, Ledger.known?_begun_self h.tune.memo] at hkey
      cases hkey
    · rwa [Ledger.known?_begun_of_ne hne] at hkey

end Faithful

/-! ## an attempt made again -/

/-- `x` makes the attempt `d` for the first time, inside the attempts `outer`, and `z` makes it again;
it had none of the attempts `D` under way when it was `z₀` -/
structure Echoes (g : Graph τ) (ignorables : List Pattern) (p : Place) (d : Memo.Key)
    (outer : List Memo.Key) (F : Ledger τ) (D : Memo.Key → Prop) (z₀ x z : Ledger τ) : Prop where
  place : x.reader.place = z.reader.place
  faithful : Faithful g ignorables p x
  stack : underWay x.events = d :: outer
  retraces : Ledger.Retraces p F z
  self : z.known? d = some .inProgress
  opened : ∀ {key}, z.known? key = some .inProgress → key = d ∨ ¬ D key
  known : ∀ {key}, z.known? key ≠ none → z₀.known? key ≠ none ∨ D key

/-- what is asked of the ends of the runs: only attempts `D` are over in the first one, and then as
`Ends` has it -/
def Closes (F : Ledger τ) (D : Memo.Key → Prop) (x z : Ledger τ) : Prop :=
  (∀ key, x.Done key → D key) ∧ Ends F D x z

/-- an attempt leaves a faithful memory faithful, if it takes that long -/
def Keeps (g : Graph τ) (ignorables : List Pattern) (p : Place) (k : Nat) : Prop :=
  ∀ {l l' : Ledger τ} {rule : Nat} {r : Option (Fragment τ)}, Faithful g ignorables p l →
    Settles g ignorables k (l.enter g rule) r l' → Faithful g ignorables p l'

namespace Echoes
variable {d : Memo.Key} {outer : List Memo.Key} {F : Ledger τ} {D : Memo.Key → Prop}
  {z₀ x z : Ledger τ}

theorem congruence (g : Graph τ) (ignorables : List Pattern) (p : Place) (d : Memo.Key)
    (outer : List Memo.Key) (F : Ledger τ) (D : Memo.Key → Prop) (z₀ : Ledger τ) :
    Congruence (Echoes g ignorables p d outer F D z₀) (p ≤ ·) where
  same h := h.place
  here h := h.faithful.within.here
  moveTo h hq :=
    { h with
      place := rfl
      faithful := ((Faithful.congruence g ignorables p).moveTo ⟨rfl, h.faithful⟩ hq).2
      retraces := h.retraces.congr rfl hq }
  readTo h hq :=
    { h with
      place := rfl
      faithful := ((Faithful.congruence g ignorables p).readTo ⟨rfl, h.faithful⟩ hq).2
      retraces := h.retraces.congr rfl (Place.le_trans h.faithful.within.here hq) }
  count f hf h :=
    { h with
      faithful := ((Faithful.congruence g ignorables p).count f hf ⟨rfl, h.faithful⟩).2
      retraces := h.retraces.congr rfl h.retraces.within.here }
  note e he h :=
    { h with
      faithful := ((Faithful.congruence g ignorables p).note e he ⟨rfl, h.faithful⟩).2
      stack := (underWay_of_plain he _).trans h.stack
      retraces := h.retraces.congr rfl h.retraces.within.here }

theorem lockstep (g : Graph τ) (ignorables : List Pattern) (p : Place) (d : Memo.Key)
    (outer : List Memo.Key) (F : Ledger τ) (D : Memo.Key → Prop) (z₀ : Ledger τ) :
    Lockstep p (fun _ : Unit => Echoes g ignorables p d outer F D z₀) (Closes F D) where
  congruence _ := congruence g ignorables p d outer F D z₀
  left h := h.faithful.within
  right h := h.retraces.within
  back hC hx hz := by
    refine ⟨fun key hkey => hC.1 key ?_, hx.past hC.2.1, hC.2.2.of_extends hz⟩
    obtain ⟨r, q, hkey⟩ := hkey
    exact ⟨r, q, hx.known hkey⟩

theorem key_eq (h : Echoes g ignorables p d outer F D z₀ x z) (rule : Nat) :
    z.key rule = x.key rule :=
  Ledger.key_congr h.place.symm rule

theorem first {l : Ledger τ} {rule : Nat} (hl : Faithful g ignorables p l)
    (habsent : l.known? (l.key rule) = none) (hz : Ledger.Retraces p F z)
    (hplace : l.reader.place = z.reader.place) (hself : D (l.key rule))
    (hopened : ∀ {key}, z.known? key = some .inProgress → ¬ D key) :
    Echoes g ignorables p (l.key rule) (underWay l.events) F D z (l.begun rule) (z.begun rule) := by
  have hkey : z.key rule = l.key rule := Ledger.key_congr hplace.symm rule
  refine ⟨?_, hl.begun habsent, ?_, hz.begun rule, ?_, ?_, ?_⟩
  · rw [Ledger.begun_reader, Ledger.begun_reader]
    exact hplace
  · rw [Ledger.begun_events]
    rfl
  · rw [← hkey]
    exact Ledger.known?_begun_self hz.memo rule
  · intro key hopen
    by_cases hne : key = l.key rule
    · exact .inl hne
    · rw [Ledger.known?_begun_of_ne (hkey ▸ hne)] at hopen
      exact .inr (hopened hopen)
  · intro key hknown
    by_cases hne : key = l.key rule
    · exact .inr (hne ▸ hself)
    · rw [Ledger.known?_begun_of_ne (hkey ▸ hne)] at hknown
      exact .inl hknown

theorem cutOff (h : Echoes g ignorables p d outer F D z₀ x z) (rule : Nat) :
    Echoes g ignorables p d outer F D z₀ (x.cutOff rule) (z.cutOff rule) :=
  { h with
    faithful := h.faithful.cutOff rule
    retraces := h.retraces.congr rfl h.retraces.within.here }

/-- an attempt that is cut off is `d` itself, if `d` is not cut short -/
theorem inProgress (h : Echoes g ignorables p d outer F D z₀ x z) (hd : d ∉ curtailed F.events)
    {rule : Nat} (hF : (x.cutOff rule).Past F) : z.known? (z.key rule) = some .inProgress := by
  by_cases hkey : x.key rule = d
  · rw [h.key_eq, hkey]
    exact h.self
  · have hstack : underWay x.events = [] ++ d :: outer := h.stack
    exact absurd (hF.curtailed (mem_curtailed_cut hstack List.not_mem_nil hkey)) hd

variable {rule root k k' : Nat} {r r' : Option (Fragment τ)} {x' z' : Ledger τ}

/-- the first run has come to a result, and the second one comes to it too -/
theorem arrived (h : Echoes g ignorables p d outer F D z₀ x z) (hx : x.Extends p x')
    (hx' : Faithful g ignorables p x') (hroot : g.root? rule = some root)
    (hkey : x'.known? (x.key rule) = some (.done r x'.reader.place))
    (hz : Settles g ignorables k (z.enter g rule) r' z') (hends : Closes F D x' z') :
    r = r' ∧ Echoes g ignorables p d outer F D z₀ x' z' := by
  obtain ⟨hD, hF, hspared⟩ := hends
  have hstack : underWay x'.events = d :: outer := hx.ended.trans h.stack
  have hopened : ∀ {other}, z.known? other = some .inProgress → ¬ x'.Done other := by
    intro other hother hdone
    rcases h.opened hother with rfl | hout
    · obtain ⟨_, _, hdone⟩ := hdone
      have hopen : x'.known? other = some .inProgress := by
        rw [hx'.tune.inProgress, hstack]
        exact List.mem_cons_self
      rw [hopen] at hdone
      cases hdone
    · exact hout (hD other hdone)
  have hdone : x'.Done (z.key rule) := h.key_eq rule ▸ ⟨r, _, hkey⟩
  obtain ⟨hr, hplace, hretraces, hknown⟩ := h.retraces.enter hF hx'.again hopened hroot
    (h.key_eq rule ▸ hF.done hkey) (fun hopen => hopened hopen hdone) (fun _ => hdone) hz
    fun other hother => hspared other (hD other hother)
  have hextends := hz.extends_enter h.retraces.within
  refine ⟨hr, hplace.symm, hx', hstack, hretraces, hextends.known h.self,
    fun hkey => h.opened (hextends.inProgress hkey), fun hkey => ?_⟩
  rcases hknown hkey with hkey | hkey
  · exact h.known hkey
  · exact .inr (hD _ hkey)

/-- **An attempt that is not cut short is made again in step** with the first time. -/
theorem inStep {n : Nat} (hkeeps : ∀ k < n, Keeps g ignorables p k) (hd : d ∉ curtailed F.events) :
    ∀ k < n, InStep g ignorables (fun _ : Unit => Echoes g ignorables p d outer F D z₀)
      (Closes F D) k := by
  refine (lockstep g ignorables p d outer F D z₀).inStep fun k hk _ => ?_
  intro _ x z x' z' rule k' r r' h hx hz hends
  cases hroot : g.root? rule with
  | none =>
    rw [Ledger.enter_undefined hroot] at hx hz
    obtain ⟨-, rfl, rfl⟩ := hx.answer_inv
    obtain ⟨-, rfl, rfl⟩ := hz.answer_inv
    exact ⟨rfl, h⟩
  | some root =>
    by_cases hopen : x.known? (x.key rule) = some .inProgress
    · rw [Ledger.enter_inProgress hroot hopen] at hx
      obtain ⟨-, rfl, rfl⟩ := hx.answer_inv
      rw [Ledger.enter_inProgress hroot (h.inProgress hd hends.2.1)] at hz
      obtain ⟨-, rfl, rfl⟩ := hz.answer_inv
      exact ⟨rfl, h.cutOff rule⟩
    · have hwithin := h.faithful.within
      exact h.arrived (hx.extends_enter hwithin) (hkeeps k hk h.faithful hx) hroot
        (hx.known_enter hwithin h.faithful.tune.memo hroot hopen) hz hends

end Echoes

/-! ## attempts leave memories faithful -/

/-- an attempt has been made in a faithful memory: it began in `l` and led to `l₁` -/
structure Made (g : Graph τ) (ignorables : List Pattern) (p : Place) (l l₁ : Ledger τ)
    (rule root i : Nat) (r : Option (Fragment τ)) : Prop where
  earlier : Faithful g ignorables p l
  absent : l.known? (l.key rule) = none
  isRoot : g.root? rule = some root
  settles : Settles g ignorables i ((l.begun rule).start g ignorables root) r l₁

namespace Made
variable {l l₁ : Ledger τ} {rule root i : Nat} {r : Option (Fragment τ)}

theorem extends_begun (h : Made g ignorables p l l₁ rule root i r) : (l.begun rule).Extends p l₁ :=
  h.settles.extends_start (h.earlier.within.begun rule)

theorem inProgress (h : Made g ignorables p l l₁ rule root i r) :
    l₁.known? (l.key rule) = some .inProgress :=
  h.extends_begun.known (Ledger.known?_begun_self h.earlier.tune.memo rule)

theorem known_closed (h : Made g ignorables p l l₁ rule root i r) :
    (l₁.closed rule l.reader.place r).known? (l.key rule) = some (.done r l₁.reader.place) :=
  Ledger.known?_closed_self (Ledger.isSome_of_known? h.inProgress) rule l.reader.place r

theorem past (h : Made g ignorables p l l₁ rule root i r) :
    l₁.Past (l₁.closed rule l.reader.place r) :=
  .of_closed h.inProgress (.refl _)

/-- a run that does not know the attempt makes it again, and comes to the same -/
theorem retraced (h : Made g ignorables p l l₁ rule root i r)
    (hkeeps : ∀ k < i + 1, Keeps g ignorables p k) {F z z' : Ledger τ} {k : Nat}
    {r' : Option (Fragment τ)} (hF : (l₁.closed rule l.reader.place r).Past F)
    (hlong : l.key rule ∉ curtailed F.events) (hz : Ledger.Retraces p F z)
    (hplace : l.reader.place = z.reader.place)
    (hopened : ∀ {other}, z.known? other = some .inProgress →
      ¬ (l₁.closed rule l.reader.place r).Done other)
    (habsent : z.known? (z.key rule) = none)
    (hsettles : Settles g ignorables k (z.enter g rule) r' z')
    (hspared : Spared F (l₁.closed rule l.reader.place r).Done z') :
    Ledger.Retraces p F z' ∧ ∀ {other}, z'.known? other ≠ none →
      z.known? other ≠ none ∨ (l₁.closed rule l.reader.place r).Done other := by
  have hkey : z.key rule = l.key rule := Ledger.key_congr hplace.symm rule
  have hself : (l₁.closed rule l.reader.place r).Done (l.key rule) := ⟨r, _, h.known_closed⟩
  rw [Ledger.enter_absent h.isRoot habsent] at hsettles
  obtain ⟨i', z₁, hz₁, rfl, -⟩ := hsettles.rule_inv
  have hends : Closes F (l₁.closed rule l.reader.place r).Done l₁ z₁ :=
    ⟨fun _ => h.past.isDone, h.past.trans hF, hspared.of_closed⟩
  obtain ⟨rfl, hechoes⟩ := Echoes.inStep hkeeps hlong i (Nat.lt_succ_self i) ()
    (.first h.earlier h.absent hz hplace hself hopened) h.settles hz₁ hends
  have hdone : F.known? (z.key rule) = some (.done r z₁.reader.place) := by
    rw [hkey, ← hechoes.place]
    exact hF.done h.known_closed
  refine ⟨hechoes.retraces.closed hdone, fun {other} hother => ?_⟩
  by_cases hne : other = z.key rule
  · exact .inr (hne ▸ hkey ▸ hself)
  · rw [Ledger.known?_closed_of_ne hne] at hother
    exact hechoes.known hother

/-- **An attempt that is over can be made again**, if that holds of every one before. -/
theorem replays (h : Made g ignorables p l l₁ rule root i r)
    (hkeeps : ∀ k < i + 1, Keeps g ignorables p k) :
    Replays g ignorables p (l₁.closed rule l.reader.place r).Done (l₁.closed rule l.reader.place r)
      (l.key rule) := by
  have hself : (l₁.closed rule l.reader.place r).Done (l.key rule) := ⟨r, _, h.known_closed⟩
  refine ⟨id, fun {F z z' k r'} hF hz hoffset hopened hsettles hspared => ?_⟩
  have hplace : l.reader.place = z.reader.place :=
    Place.le_ext h.earlier.within.here hz.within.here hoffset.symm
  have hkey : z.key rule = l.key rule := Ledger.key_congr hplace.symm rule
  have hnot : z.known? (z.key rule) ≠ some .inProgress := fun hopen => hopened hopen (hkey ▸ hself)
  -- the attempt is known at the end, so it is none of those that were cut short
  have hlong : l.key rule ∉ curtailed F.events := by
    intro hmem
    have hz' := hsettles.known_enter hz.within hz.memo h.isRoot hnot
    rw [hkey, hspared _ hself hmem] at hz'
    cases hz'
  cases hentry : z.known? (z.key rule) with
  | none => exact h.retraced hkeeps hF hlong hz hplace hopened hentry hsettles hspared
  | some entry =>
    cases entry with
    | inProgress => exact absurd hentry hnot
    | done result stop =>
      obtain ⟨hretraces, hknown⟩ := hz.enter_done h.isRoot hentry hsettles
      exact ⟨hretraces, fun hother => .inl (hknown hother)⟩

/-- **What is remembered of the attempt is what comes of it afresh.** -/
theorem afresh (h : Made g ignorables p l l₁ rule root i r) :
    Afresh g ignorables p (l₁.closed rule l.reader.place r) (l.key rule) r l₁.reader.place := by
  refine ⟨l.reader.place, h.earlier.within.here, rfl, ?_⟩
  intro F z z' k r' hF hlong hmemo hz hplace hsettles hspared
  have hevents := h.extends_begun.events.trans (h.past.trans hF).events
  rw [Ledger.begun_events] at hevents
  have hbefore : before (l.key rule) F.events = l.events :=
    before_eq (fun hmem => h.earlier.tune.entered hmem h.absent) hevents
  rw [hbefore] at hspared
  refine Follows.afresh h.earlier.tune h.earlier.within h.earlier.again h.absent h.isRoot h.settles hF
    hlong hmemo hz hplace hsettles fun key hdone hmem => ?_
  obtain ⟨_, _, hdone⟩ := hdone
  exact hspared key (h.earlier.tune.ended hdone) hmem

/-- **The memory is faithful after the attempt.** -/
theorem faithful (h : Made g ignorables p l l₁ rule root i r)
    (hkeeps : ∀ k < i + 1, Keeps g ignorables p k) (hl₁ : Faithful g ignorables p l₁) :
    Faithful g ignorables p (l₁.closed rule l.reader.place r) := by
  have hunder : underWay l₁.events = l.key rule :: underWay l.events := by
    rw [h.extends_begun.ended, Ledger.begun_events]
    rfl
  have hextends := Ledger.Extends.attempted h.absent h.extends_begun r
  refine ⟨hl₁.tune.closed hunder r, hextends.within, ?_, ?_⟩
  · rintro key ⟨result, stop, hkey⟩
    by_cases hne : key = l.key rule
    · exact hne ▸ ⟨_, h.replays hkeeps⟩
    · rw [Ledger.known?_closed_of_ne hne] at hkey
      obtain ⟨D, hD⟩ := hl₁.again key ⟨result, stop, hkey⟩
      exact ⟨D, hD.past h.past⟩
  · intro key result stop hkey
    by_cases hne : key = l.key rule
    · subst hne
      cases h.known_closed.symm.trans hkey
      exact h.afresh
    · rw [Ledger.known?_closed_of_ne hne] at hkey
      exact (hl₁.afresh hkey).past h.past

end Made

/-! ## whole runs -/

theorem Faithful.lockstep (g : Graph τ) (ignorables : List Pattern) (p : Place) :
    Lockstep p (fun (_ : Unit) l l' => l = l' ∧ Faithful g ignorables p l) fun _ _ => True where
  congruence _ := congruence g ignorables p
  left h := h.2.within
  right h := h.1 ▸ h.2.within
  back _ _ _ := trivial

/-- a parser leaves a faithful memory faithful, if attempts do -/
theorem Keeps.start {n : Nat} (hkeeps : ∀ k < n, Keeps g ignorables p k) {k node : Nat} (hk : k < n)
    {l l' : Ledger τ} {r : Option (Fragment τ)} (hl : Faithful g ignorables p l)
    (h : Settles g ignorables k (l.start g ignorables node) r l') : Faithful g ignorables p l' := by
  have hself : ∀ k < n, InStep g ignorables
      (fun (_ : Unit) l l' => l = l' ∧ Faithful g ignorables p l) (fun _ _ => True) k := by
    refine (Faithful.lockstep g ignorables p).inStep fun k hk _ => ?_
    rintro _ x _ x' z' rule k' r r' ⟨rfl, hx⟩ h h' -
    obtain ⟨-, rfl, rfl⟩ := h.unique h'
    exact ⟨rfl, rfl, hkeeps k hk hx h⟩
  exact (hself k hk () ⟨rfl, hl⟩ h h trivial).2.2

/-- **Attempts leave a faithful memory faithful**, however long they take. -/
theorem keeps (g : Graph τ) (ignorables : List Pattern) (p : Place) (k : Nat) :
    Keeps g ignorables p k := by
  induction k using Nat.strongRecOn with
  | ind k ih =>
    intro l l' rule r hl h
    cases hroot : g.root? rule with
    | none =>
      rw [Ledger.enter_undefined hroot] at h
      obtain ⟨-, rfl, rfl⟩ := h.answer_inv
      exact hl
    | some root =>
      cases hentry : l.known? (l.key rule) with
      | none =>
        rw [Ledger.enter_absent hroot hentry] at h
        obtain ⟨i, l₁, h₁, rfl, rfl⟩ := h.rule_inv
        -- the attempts made inside this one, and repeated with it, are shorter
        have hmade : Made g ignorables p l l₁ rule root i r := ⟨hl, hentry, hroot, h₁⟩
        exact hmade.faithful ih (Keeps.start ih (Nat.lt_succ_self i) (hl.begun hentry) h₁)
      | some entry =>
        cases entry with
        | inProgress =>
          rw [Ledger.enter_inProgress hroot hentry] at h
          obtain ⟨-, rfl, rfl⟩ := h.answer_inv
          exact hl.cutOff rule
        | done result stop =>
          rw [Ledger.enter_done hroot hentry] at h
          obtain ⟨-, rfl, rfl⟩ := h.answer_inv
          exact hl.reuse (hl.within.stop _ _ _ hentry)

theorem Faithful.fresh (g : Graph τ) (ignorables : List Pattern) (reader : Reader) :
    Faithful g ignorables reader.place (Machine.fresh reader true).ledger := by
  have hknown : ∀ key, (Machine.fresh reader true : Machine τ).ledger.known? key = none :=
    Machine.fresh_known? reader true
  refine ⟨⟨rfl, fun {key} => ?_, List.nodup_nil, fun hkey => (nomatch hkey), fun {key _ _} hkey => ?_⟩,
    Machine.fresh_within reader true, ?_, fun {key _ _} hkey => ?_⟩
  · rw [hknown]
    exact ⟨fun he => (nomatch he), fun hmem => (nomatch hmem)⟩
  · rw [hknown] at hkey
    cases hkey
  · rintro key ⟨_, _, hkey⟩
    rw [hknown] at hkey
    cases hkey
  · rw [hknown] at hkey
    cases hkey

/-- **A session leaves a faithful memory faithful.** -/
theorem Ledger.Serves.faithful {l l' : Ledger τ} {calls : List Call} {replies : List (Reply τ)}
    (h : l.Serves g ignorables calls replies l') (hl : Faithful g ignorables p l) :
    Faithful g ignorables p l' := by
  induction h with
  | nil l => exact hl
  | @cons k l l₁ l₂ call result calls replies hcall _ ih =>
    refine ih ?_
    cases call with
    | parser node =>
      exact Keeps.start (fun k _ => keeps g ignorables p k) (Nat.lt_succ_self k) hl hcall
    | rule rule => exact keeps g ignorables p k hl hcall

end

/-! ## an example of an attempt that is cut short -/

namespace Entangled

def draft (name : String) : Rule.Draft Unit := { name := name }

/-- two rules that begin with each other, and one that begins with the first:
`a ::= b "x" | "y"`, `b ::= a "z"` and `t ::= a "q"` -/
def grammar : Grammar Unit :=
  [draft "a" |>.call "b" |>.hide "x" |>.or |>.hide "y",
    draft "b" |>.call "a" |>.hide "z",
    draft "t" |>.call "a" |>.hide "q"].foldl Grammar.declare .empty

/-- a machine at the beginning of the text `yz` -/
def machine : Machine Unit := .fresh (Reader.first "yz".toList) true

end Entangled

section
variable {τ : Type}

/-- whether an attempt that is over has matched, and where it ended -/
def Memo.Entry.outcome? : Memo.Entry τ → Option (Bool × Place)
  | .inProgress => none
  | .done result stop => some (result.isSome, stop)

theorem Memo.Entry.outcome?_eq_some {entry : Memo.Entry τ} {matched : Bool} {stop : Place}
    (h : entry.outcome? = some (matched, stop)) :
    ∃ result, entry = .done result stop ∧ result.isSome = matched := by
  cases entry with
  | inProgress => cases h
  | done result stop =>
    cases h
    exact ⟨result, rfl, rfl⟩

/-! ## what is remembered -/

/-- **What a session remembers of an attempt is what a machine comes to that has parsed nothing yet**
and makes that attempt, if it was not cut short, and that machine makes none that had been cut short,
and had ended, before it began. -/
theorem remembered_afresh (grammar : Grammar τ) (ignorables : List Pattern) (reader : Reader)
    {limit : Nat} {calls : List Call} {replies : List (Reply τ)} {m : Machine τ}
    (h : (Machine.fresh reader true).session? grammar.compile ignorables limit calls =
      some (replies, m))
    {key : Memo.Key} {result : Option (Fragment τ)} {stop : Place}
    (hkey : m.ledger.known? key = some (.done result stop)) :
    ∃ place, reader.place ≤ place ∧ place.offset = key.offset ∧ ∀ furthest, ∃ limit outcome m',
      (Machine.fresh ⟨place, furthest⟩ true).evaluateRule? grammar.compile ignorables limit key.rule =
        some (outcome, m') ∧
      (key ∉ curtailed m.events →
        (∀ other ∈ curtailed m.events, other ∈ ended (before key m.events) →
          m'.ledger.known? other = none) →
        outcome = result ∧ m'.reader.place = stop) := by
  obtain ⟨-, hserves⟩ := Machine.serves_of_session? (Machine.fresh_idle reader true) h
  obtain ⟨place, hplace, hoffset, hafresh⟩ :=
    (hserves.faithful (.fresh grammar.compile ignorables reader)).afresh hkey
  refine ⟨place, hplace, hoffset, fun furthest => ?_⟩
  have hcomes : Comes grammar.compile ignorables
      ((Machine.fresh ⟨place, furthest⟩ true).ledger.begin grammar.compile ignorables
        (.rule key.rule)) :=
    Ledger.comes_begin (fun i node hnode => grammar.operand_lt hnode) rfl
      (Machine.fresh_within ⟨place, furthest⟩ true) _
  obtain ⟨k, outcome, z', hz'⟩ := hcomes
  obtain ⟨m', -, rfl, hserve⟩ := Machine.serve?_of_settles (Machine.fresh_idle _ true) hz'
  refine ⟨2 * k + 2, outcome, m', hserve _ (Nat.lt_succ_self _), fun hlong hspared => ?_⟩
  exact hafresh (.refl _) hlong rfl (Machine.fresh_known? _ true) rfl hz'
    fun other hended hmem => hspared other hmem hended

end

namespace Entangled

/-- inside `t`, the rule `b` is cut short and `a` is not; what is remembered of `a` comes of it afresh -/
theorem remembered_afresh_inside :
    ∃ replies m result stop,
      machine.session? grammar.compile [] 100 [.rule 2, .rule 1] = some (replies, m) ∧
      m.ledger.known? ⟨0, 0⟩ = some (.done result stop) ∧ curtailed m.events = [⟨0, 1⟩] ∧
      ∃ place : Place, place.offset = 0 ∧ ∀ furthest, ∃ limit m',
        (Machine.fresh ⟨place, furthest⟩ true).evaluateRule? grammar.compile [] limit 0 =
          some (result, m') ∧ m'.reader.place = stop := by
  have hview : (machine.session? grammar.compile [] 100 [.rule 2, .rule 1]).map (fun x =>
      ((x.2.ledger.known? ⟨0, 0⟩).bind Memo.Entry.outcome?, curtailed x.2.events,
        ended (before ⟨0, 0⟩ x.2.events))) = some (some (true, ⟨1, "z".toList⟩), [⟨0, 1⟩], []) := by
    decide +kernel
  obtain ⟨⟨replies, m⟩, hm, hview⟩ := Option.map_eq_some_iff.mp hview
  obtain ⟨hknown, hevents⟩ := Prod.mk.inj hview
  obtain ⟨hcurtailed, hended⟩ := Prod.mk.inj hevents
  obtain ⟨entry, hentry, houtcome⟩ := Option.bind_eq_some_iff.mp hknown
  obtain ⟨result, rfl, -⟩ := Memo.Entry.outcome?_eq_some houtcome
  obtain ⟨place, -, hoffset, h⟩ := remembered_afresh grammar [] (Reader.first "yz".toList) hm hentry
  refine ⟨replies, m, result, _, hm, hentry, hcurtailed, place, hoffset, fun furthest => ?_⟩
  obtain ⟨limit, outcome, m', hrun, hsame⟩ := h furthest
  have hlong : (⟨0, 0⟩ : Memo.Key) ∉ curtailed m.events := by
    rw [hcurtailed]
    decide
  obtain ⟨rfl, hstop⟩ := hsame hlong fun other _ hother => by
    rw [hended] at hother
    cases hother
  exact ⟨limit, m', hrun, hstop⟩

/-- **What is remembered of `b` is not what comes of it afresh.**  It was tried inside `a`, and `a`
was cut off in it. -/
theorem remembered_otherwise :
    ∃ replies m outcome m',
      machine.session? grammar.compile [] 100 [.rule 2] = some (replies, m) ∧
      m.ledger.known? ⟨0, 1⟩ = some (.done none (Reader.first "yz".toList).place) ∧
      machine.evaluateRule? grammar.compile [] 100 1 = some (outcome, m') ∧
      outcome.isSome = true ∧ m'.reader.offset = 2 := by
  have hsession : (machine.session? grammar.compile [] 100 [.rule 2]).map (fun x =>
      (x.2.ledger.known? ⟨0, 1⟩).bind Memo.Entry.outcome?) =
        some (some (false, (Reader.first "yz".toList).place)) := by
    decide +kernel
  have hafresh : (machine.evaluateRule? grammar.compile [] 100 1).map (fun x =>
      (x.1.isSome, x.2.reader.offset)) = some (true, 2) := by
    decide +kernel
  obtain ⟨⟨replies, m⟩, hm, hknown⟩ := Option.map_eq_some_iff.mp hsession
  obtain ⟨⟨outcome, m'⟩, hm', houtcome⟩ := Option.map_eq_some_iff.mp hafresh
  obtain ⟨entry, hentry, hfailed⟩ := Option.bind_eq_some_iff.mp hknown
  obtain ⟨result, rfl, hnone⟩ := Memo.Entry.outcome?_eq_some hfailed
  cases result with
  | some found => cases hnone
  | none =>
    obtain ⟨hsome, hoffset⟩ := Prod.mk.inj houtcome
    exact ⟨replies, m, outcome, m', hm, hentry, hm', hsome, hoffset⟩

end Entangled

end Packrat
