import Packrat.Proofs.Memory

/-!
# What the events tell of the attempts

* `ended`              the attempts that have ended;
* `before`             the events before an attempt first began;
* `curtailed`          the attempts that were cut short: an attempt further out was cut off in them;
* `Ledger.InTune`      the memory and the events tell the same of the attempts;
* `Ledger.InTune.begun`, `Ledger.InTune.closed`   they do so when an attempt begins and ends.

A cut lets an attempt fail because it is under way already.  What was begun after that attempt, and
is under way too, ends with what the cut has made of it.
-/

namespace Packrat

/-- the attempts that have ended, the latest first -/
def ended : List Event → List Memo.Key
  | [] => []
  | .exited rule offset _ :: events => ⟨offset, rule⟩ :: ended events
  | _ :: events => ended events

/-- the events before the attempt began for the first time -/
def before (key : Memo.Key) (events : List Event) : List Event :=
  (events.reverse.takeWhile (· ≠ .entered key.rule key.offset)).reverse

/-- the attempts that were cut short: they were under way, and begun after the attempt that was cut
off -/
def curtailed : List Event → List Memo.Key
  | [] => []
  | .cut rule offset :: events =>
    (underWay events).takeWhile (· ≠ ⟨offset, rule⟩) ++ curtailed events
  | _ :: events => curtailed events

/-! ## later events -/

theorem ended_subset_cons (e : Event) (events : List Event) : ended events ⊆ ended (e :: events) := by
  cases e with
  | exited rule offset matched => exact List.subset_cons_self _ _
  | entered rule offset => exact List.Subset.refl _
  | cut rule offset => exact List.Subset.refl _
  | unresolved name => exact List.Subset.refl _
  | stalled offset => exact List.Subset.refl _

theorem curtailed_subset_cons (e : Event) (events : List Event) :
    curtailed events ⊆ curtailed (e :: events) := by
  cases e with
  | cut rule offset => exact List.subset_append_right _ _
  | exited rule offset matched => exact List.Subset.refl _
  | entered rule offset => exact List.Subset.refl _
  | unresolved name => exact List.Subset.refl _
  | stalled offset => exact List.Subset.refl _

/-- an attempt that was cut short stays so -/
theorem curtailed_subset {events events' : List Event} (h : events <:+ events') :
    curtailed events ⊆ curtailed events' := by
  obtain ⟨later, rfl⟩ := h
  induction later with
  | nil => exact List.Subset.refl _
  | cons e later ih => exact List.Subset.trans ih (curtailed_subset_cons e _)

/-- the innermost attempt is cut short when another one is cut off, and so is any that was begun
after that one -/
theorem mem_curtailed_cut {rule offset : Nat} {events : List Event} {inner outer : List Memo.Key}
    {key : Memo.Key} (h : underWay events = inner ++ key :: outer)
    (hinner : (⟨offset, rule⟩ : Memo.Key) ∉ inner) (hkey : (⟨offset, rule⟩ : Memo.Key) ≠ key) :
    key ∈ curtailed (.cut rule offset :: events) := by
  have hne : ∀ other ∈ inner, decide (other ≠ (⟨offset, rule⟩ : Memo.Key)) = true := by
    intro other hother
    refine decide_eq_true ?_
    rintro rfl
    exact hinner hother
  refine List.mem_append_left _ ?_
  rw [h, List.takeWhile_append_of_pos hne, List.takeWhile_cons,
    if_pos (decide_eq_true hkey.symm)]
  exact List.mem_append_right _ List.mem_cons_self

/-- the events before an attempt are those at which it began, if it had not begun earlier -/
theorem before_eq {key : Memo.Key} {events events' : List Event}
    (hfirst : Event.entered key.rule key.offset ∉ events)
    (h : Event.entered key.rule key.offset :: events <:+ events') : before key events' = events := by
  obtain ⟨later, rfl⟩ := h
  have hne : ∀ e ∈ events.reverse, decide (e ≠ .entered key.rule key.offset) = true := by
    intro e he
    refine decide_eq_true ?_
    rintro rfl
    exact hfirst (List.mem_reverse.mp he)
  rw [before, List.reverse_append, List.reverse_cons, List.append_assoc,
    List.takeWhile_append_of_pos hne, List.singleton_append,
    List.takeWhile_cons_of_neg (by simp), List.append_nil, List.reverse_reverse]

/-! ## the memory and the events -/

namespace Ledger
variable {τ : Type}

/-- the run has a memory, and its events tell the same of the attempts as the memory does -/
structure InTune (l : Ledger τ) : Prop where
  memo : l.memo.isSome = true
  inProgress : ∀ {key}, l.known? key = some .inProgress ↔ key ∈ underWay l.events
  nodup : (underWay l.events).Nodup
  entered : ∀ {key : Memo.Key}, Event.entered key.rule key.offset ∈ l.events → l.known? key ≠ none
  ended : ∀ {key result stop}, l.known? key = some (.done result stop) → key ∈ ended l.events

/-- the attempt is over -/
def Done (l : Ledger τ) (key : Memo.Key) : Prop :=
  ∃ result stop, l.known? key = some (.done result stop)

namespace InTune
variable {l : Ledger τ}

theorem note (h : l.InTune) {e : Event} (he : ∀ events, underWay (e :: events) = underWay events)
    (hne : ∀ rule offset, e ≠ .entered rule offset) : (l.note e).InTune where
  memo := h.memo
  inProgress {key} := by
    show l.known? key = _ ↔ key ∈ underWay (e :: l.events)
    rw [he]
    exact h.inProgress
  nodup := by
    show (underWay (e :: l.events)).Nodup
    rw [he]
    exact h.nodup
  entered {key} hkey := by
    rcases List.mem_cons.mp hkey with heq | hkey
    · exact absurd heq.symm (hne _ _)
    · exact h.entered hkey
  ended hkey := ended_subset_cons e l.events (h.ended hkey)

theorem note_plain (h : l.InTune) {e : Event} (he : e.Plain) : (l.note e).InTune := by
  refine h.note (underWay_of_plain he) ?_
  rintro rule offset rfl
  exact he

theorem cutOff (h : l.InTune) (rule : Nat) : (l.cutOff rule).InTune :=
  InTune.note (l := l.count _) { h with } (fun _ => rfl) (fun _ _ he => nomatch he)

theorem begun (h : l.InTune) {rule : Nat} (habsent : l.known? (l.key rule) = none) :
    (l.begun rule).InTune := by
  have hkey : l.key rule ∉ underWay l.events := by
    intro hmem
    rw [← h.inProgress, habsent] at hmem
    cases hmem
  have hunder : underWay (l.begun rule).events = l.key rule :: underWay l.events := by
    rw [begun_events]
    rfl
  refine ⟨?_, ?_, ?_, ?_, ?_⟩
  · rw [begun_memo_isSome]
    exact h.memo
  · intro key
    rw [hunder, List.mem_cons]
    by_cases hne : key = l.key rule
    · rw [hne, known?_begun_self h.memo]
      exact ⟨fun _ => .inl rfl, fun _ => rfl⟩
    · rw [known?_begun_of_ne hne, h.inProgress]
      exact ⟨.inr, fun hmem => hmem.resolve_left hne⟩
  · rw [hunder]
    exact List.nodup_cons.mpr ⟨hkey, h.nodup⟩
  · intro key hentered
    by_cases hne : key = l.key rule
    · rw [hne, known?_begun_self h.memo]
      exact Option.some_ne_none _
    · rw [known?_begun_of_ne hne]
      rw [begun_events] at hentered
      rcases List.mem_cons.mp hentered with heq | hentered
      · cases key
        cases heq
        exact absurd rfl hne
      · exact h.entered hentered
  · intro key result stop hdone
    by_cases hne : key = l.key rule
    · rw [hne, known?_begun_self h.memo] at hdone
      cases hdone
    · rw [known?_begun_of_ne hne] at hdone
      rw [begun_events]
      exact h.ended hdone

/-- the innermost attempt ends -/
theorem closed (h : l.InTune) {rule : Nat} {start : Place} {outer : List Memo.Key}
    (hunder : underWay l.events = ⟨start.offset, rule⟩ :: outer) (result : Option (Fragment τ)) :
    (l.closed rule start result).InTune := by
  have hnodup := h.nodup
  rw [hunder] at hnodup
  obtain ⟨hkey, houter⟩ := List.nodup_cons.mp hnodup
  have hunder' : underWay (l.closed rule start result).events = outer := by
    show (underWay l.events).tail = outer
    rw [hunder]
    rfl
  refine ⟨?_, ?_, ?_, ?_, ?_⟩
  · rw [closed_memo_isSome]
    exact h.memo
  · intro key
    rw [hunder']
    by_cases hne : key = ⟨start.offset, rule⟩
    · rw [hne, known?_closed_self h.memo]
      refine ⟨fun he => ?_, fun hmem => absurd hmem hkey⟩
      cases he
    · rw [known?_closed_of_ne hne, h.inProgress, hunder, List.mem_cons]
      exact ⟨fun hmem => hmem.resolve_left hne, .inr⟩
  · rw [hunder']
    exact houter
  · intro key hentered
    by_cases hne : key = ⟨start.offset, rule⟩
    · rw [hne, known?_closed_self h.memo]
      exact Option.some_ne_none _
    · rw [known?_closed_of_ne hne]
      rcases List.mem_cons.mp hentered with heq | hentered
      · cases heq
      · exact h.entered hentered
  · intro key result' stop hdone
    by_cases hne : key = ⟨start.offset, rule⟩
    · rw [hne]
      exact List.mem_cons_self
    · rw [known?_closed_of_ne hne] at hdone
      exact List.mem_cons_of_mem _ (h.ended hdone)

end InTune

end Ledger

end Packrat
