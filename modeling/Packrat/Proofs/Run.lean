import Packrat.Proofs.Ledger

/-!
# Runs as courses of moves

A run that has something to do comes to an end exactly when its move settles, and then with the
result of the move.  What lies on the stacks below is not touched meanwhile.

* `Machine.Idle`          no stack holds anything;
* `Machine.run?_make`     the run of a move that settles passes through the answer, two steps a wait;
* `Machine.settles_of_run?`   a move settles if its run comes to an end;
* `Machine.finish?_make`      the two together, for a machine with nothing else to do.
-/

namespace Packrat

namespace Machine
variable {τ : Type} {g : Graph τ} {ignorables : List Pattern}

/-! ## limits -/

/-- a higher limit does not change how a run ends -/
theorem run?_mono {limit limit' : Nat} {m m' : Machine τ} (hle : limit ≤ limit')
    (h : m.run? g ignorables limit = some m') : m.run? g ignorables limit' = some m' := by
  induction limit generalizing limit' m with
  | zero => cases h
  | succ limit ih =>
    cases limit' with
    | zero => omega
    | succ limit' =>
      rw [run?] at h ⊢
      split at h
      · exact h
      · exact ih (by omega) h

theorem finish?_mono {limit limit' : Nat} {m : Machine τ} {x : Option (Fragment τ) × Machine τ}
    (hle : limit ≤ limit') (h : m.finish? g ignorables limit = some x) :
    m.finish? g ignorables limit' = some x := by
  rw [finish?, Option.map_eq_some_iff] at h ⊢
  obtain ⟨m', hm', hx⟩ := h
  exact ⟨m', run?_mono hle hm', hx⟩

/-! ## single steps -/

/-- the machine that starts the part a frame waits for -/
def starting (m : Machine τ) (frame : Frame τ) (node : Nat) : Machine τ :=
  { (m.suspend frame node).observe with work := m.work }.tally
    fun c => { c with steps := c.steps + 1 }

/-- the machine that resumes the frame on top -/
def resuming (m : Machine τ) (frames : Pile (Frame τ)) (result : Option (Fragment τ)) : Machine τ :=
  { { (m.answer result).observe with frames := frames }.tally
    fun c => { c with resumes := c.resumes + 1 } with results := m.results }

theorem run?_suspend (limit : Nat) (m : Machine τ) (frame : Frame τ) (node : Nat) :
    (m.suspend frame node).run? g ignorables (limit + 1) =
      ((m.starting frame node).make (m.ledger.start g ignorables node)).run? g ignorables limit := by
  rw [run?]
  show ((m.starting frame node).start g ignorables node).run? g ignorables limit = _
  rw [start_eq]
  rfl

theorem run?_answer {limit : Nat} {m : Machine τ} {frame : Frame τ} {frames : Pile (Frame τ)}
    {result : Option (Fragment τ)} (hwork : m.work = []) (hframes : m.frames = frames.push frame) :
    (m.answer result).run? g ignorables (limit + 1) =
      ((m.resuming frames result).make (m.ledger.resume frame result)).run? g ignorables limit := by
  have hadvance : (m.answer result).observe.advance g ignorables =
      .running ((m.resuming frames result).resume frame result) := by
    cases m with
    | mk reader work frames' results memo counters events =>
      cases hwork
      cases hframes
      cases frames
      rfl
  rw [run?, hadvance, resume_eq]
  rfl

/-! ## whole courses -/

/-- **The run of a move that settles passes through the answer**, two steps for each wait, and
leaves the stacks below as they were. -/
theorem run?_make {k : Nat} {x : Move τ × Ledger τ} {result : Option (Fragment τ)} {l : Ledger τ}
    (h : Settles g ignorables k x result l) (m : Machine τ) (hwork : m.work = []) :
    ∃ m' : Machine τ, m'.ledger = l ∧ m'.work = [] ∧ m'.frames = m.frames ∧ m'.results = m.results ∧
      ∀ limit, (m.make x).run? g ignorables (limit + 2 * k) =
        (m'.answer result).run? g ignorables limit := by
  induction h generalizing m with
  | answer result l => exact ⟨m.withLedger l, rfl, hwork, rfl, rfl, fun limit => rfl⟩
  | @wait i j frame node l l₁ l₂ part result _ _ ih₁ ih₂ =>
    obtain ⟨m₁, hl₁, hw₁, hf₁, hr₁, hrun₁⟩ := ih₁ ((m.withLedger l).starting frame node) hwork
    obtain ⟨m₂, hl₂, hw₂, hf₂, hr₂, hrun₂⟩ := ih₂ (m₁.resuming m.frames part) hw₁
    refine ⟨m₂, hl₂, hw₂, hf₂, hr₂.trans hr₁, fun limit => ?_⟩
    show ((m.withLedger l).suspend frame node).run? g ignorables (limit + 2 * (i + j + 1)) = _
    rw [show limit + 2 * (i + j + 1) = (limit + 2 * j + 1) + 2 * i + 1 by omega, run?_suspend]
    show (((m.withLedger l).starting frame node).make (l.start g ignorables node)).run? _ _ _ = _
    rw [hrun₁, run?_answer hw₁ hf₁, hl₁]
    exact hrun₂ limit

/-- **A move settles if its run comes to an end.** -/
theorem settles_of_run? {limit : Nat} {x : Move τ × Ledger τ} {m m' : Machine τ}
    (hwork : m.work = []) (h : (m.make x).run? g ignorables limit = some m') :
    ∃ k result l, Settles g ignorables k x result l := by
  -- the runs of the part and of the resumed frame are shorter than the run of the move
  induction limit using Nat.strongRecOn generalizing x m with
  | ind limit ih =>
    obtain ⟨move, l⟩ := x
    cases move with
    | answer result => exact ⟨0, result, l, .answer result l⟩
    | wait frame node =>
      cases limit with
      | zero => cases h
      | succ limit =>
        have hpart : (((m.withLedger l).starting frame node).make
            (l.start g ignorables node)).run? g ignorables limit = some m' :=
          (run?_suspend limit (m.withLedger l) frame node).symm.trans h
        obtain ⟨i, part, l₁, hi⟩ :=
          ih limit (by omega) (show ((m.withLedger l).starting frame node).work = [] from hwork) hpart
        obtain ⟨m₁, hl₁, hw₁, hf₁, -, hrun⟩ :=
          run?_make hi ((m.withLedger l).starting frame node) hwork
        have hlong : 2 * i < limit := by
          apply Nat.lt_of_not_le
          intro hle
          have hshort := run?_mono hle hpart
          rw [← Nat.zero_add (2 * i), hrun 0] at hshort
          cases hshort
        have hrest : (m₁.answer part).run? g ignorables (limit - 2 * i - 1 + 1) = some m' := by
          rw [← hrun, ← hpart]
          congr 1
          omega
        rw [run?_answer hw₁ hf₁, hl₁] at hrest
        obtain ⟨j, result, l₂, hj⟩ :=
          ih (limit - 2 * i - 1) (by omega) (show (m₁.resuming m.frames part).work = [] from hw₁) hrest
        exact ⟨i + j + 1, result, l₂, .wait hi hj⟩

/-! ## machines with nothing else to do -/

/-- no stack holds anything -/
structure Idle (m : Machine τ) : Prop where
  work : m.work = []
  frames : m.frames = .empty
  results : m.results = []

/-- **On an idle machine, a move that settles is carried to its end**: the result is taken, and the
machine is idle again. -/
theorem finish?_make {k : Nat} {x : Move τ × Ledger τ} {result : Option (Fragment τ)}
    {l : Ledger τ} (h : Settles g ignorables k x result l) {m : Machine τ} (hm : m.Idle) :
    ∃ m' : Machine τ, m'.Idle ∧ m'.ledger = l ∧
      ∀ limit, 2 * k < limit → (m.make x).finish? g ignorables limit = some (result, m') := by
  obtain ⟨m₁, hl, hw, hf, hr, hrun⟩ := run?_make h m hm.work
  have hend : (m₁.answer result).run? g ignorables 1 = some (m₁.answer result).observe := by
    cases m₁ with
    | mk reader work frames results memo counters events =>
      cases hw
      cases hf.trans hm.frames
      rfl
  refine ⟨{ (m₁.answer result).observe with results := m₁.results },
    ⟨hw, hf.trans hm.frames, hr.trans hm.results⟩, hl, fun limit hlimit => ?_⟩
  apply finish?_mono (show 1 + 2 * k ≤ limit by omega)
  rw [finish?, hrun, hend]
  rfl

/-- if an idle machine carries a move to its end, the move settles with that result -/
theorem settles_of_finish? {limit : Nat} {x : Move τ × Ledger τ} {m m' : Machine τ}
    {result : Option (Fragment τ)} (hm : m.Idle)
    (h : (m.make x).finish? g ignorables limit = some (result, m')) :
    m'.Idle ∧ ∃ k, Settles g ignorables k x result m'.ledger := by
  obtain ⟨m₁, hrun, -⟩ := Option.map_eq_some_iff.mp h
  obtain ⟨k, result₁, l, hk⟩ := settles_of_run? hm.work hrun
  obtain ⟨m₂, hidle, hl, hfinish⟩ := finish?_make hk hm
  have h' := finish?_mono (Nat.le_max_left limit (2 * k + 1)) h
  rw [hfinish (max limit (2 * k + 1)) (by omega)] at h'
  cases h'
  exact ⟨hidle, k, hl ▸ hk⟩

end Machine

end Packrat
