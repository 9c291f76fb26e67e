import Packrat.Proofs.Memory

/-!
# Runs without a memory

Without a memory, what a run does depends on the place where it stands, and on nothing else.

* `Settles.lockstep`   runs that make the same moves and stay related come to the same;
* `Settles.transfer`   two runs without a memory that stand at the same place do the same, and take
                       equally long;
* `Settles.raise`      a run is the same after matches elsewhere, except that these have come as far
                       as they have;
* `Settles.forgetful`  a run without a memory never has one;
* `ReadsTo`            where a run without a memory comes to.
-/

namespace Packrat

/-- a frame ends an attempt, or it is plain wherever it goes back to -/
theorem Frame.rule_or_plain {τ : Type} (frame : Frame τ) :
    (∃ number start, frame = .rule number start) ∨ frame.Plain fun _ => True := by
  cases frame with
  | rule number start => exact .inl ⟨number, start, rfl⟩
  | sequence todo shape start collected => exact .inr ⟨rfl, fun _ _ => trivial⟩
  | alternative todo shape start => exact .inr ⟨rfl, fun _ _ => trivial⟩
  | repetition inner bound shape count start before collected =>
    exact .inr ⟨rfl, fun _ _ => trivial⟩
  | optional => exact .inr ⟨rfl, fun _ _ => trivial⟩

section
variable {τ : Type} {g : Graph τ} {ignorables : List Pattern}

theorem Ledger.begun_of_none {l : Ledger τ} (h : l.memo = none) (rule : Nat) :
    l.begun rule = l.note (.entered rule l.reader.offset) := by
  rw [begun, h]
  rfl

theorem Ledger.closed_of_none {l : Ledger τ} (h : l.memo = none) (rule : Nat) (start : Place)
    (result : Option (Fragment τ)) :
    l.closed rule start result = l.note (.exited rule start.offset result.isSome) := by
  cases l with
  | mk reader memo tally events =>
    cases h
    rfl

/-- runs that make the same moves and stay related come to the same, and take equally long -/
theorem Settles.lockstep {R : Ledger τ → Ledger τ → Prop}
    (hstart : ∀ {l l' : Ledger τ}, R l l' → ∀ node,
      (l.start g ignorables node).1 = (l'.start g ignorables node).1 ∧
        R (l.start g ignorables node).2 (l'.start g ignorables node).2)
    (hresume : ∀ {l l' : Ledger τ}, R l l' → ∀ frame part,
      (l.resume frame part).1 = (l'.resume frame part).1 ∧
        R (l.resume frame part).2 (l'.resume frame part).2)
    {k : Nat} {x y : Move τ × Ledger τ} {r : Option (Fragment τ)} {l : Ledger τ}
    (h : Settles g ignorables k x r l) (hxy : x.1 = y.1 ∧ R x.2 y.2) :
    ∃ l', Settles g ignorables k y r l' ∧ R l l' := by
  induction h generalizing y with
  | answer r l =>
    obtain ⟨move, l'⟩ := y
    obtain ⟨rfl, hl⟩ := hxy
    exact ⟨l', .answer r l', hl⟩
  | @wait i j frame node l l₁ l₂ part result h₁ h₂ ih₁ ih₂ =>
    obtain ⟨move, l'⟩ := y
    obtain ⟨rfl, hl⟩ := hxy
    obtain ⟨l₁', h₁', hl₁⟩ := ih₁ (hstart hl node)
    obtain ⟨l₂', h₂', hl₂⟩ := ih₂ (hresume hl₁ frame part)
    exact ⟨l₂', .wait h₁' h₂', hl₂⟩

/-- a relation of ledgers without a memory that stand at the same place -/
structure Free (R : Ledger τ → Ledger τ → Prop) : Prop where
  congruence : Congruence R fun _ => True
  left : ∀ {l l'}, R l l' → l.memo = none
  right : ∀ {l l'}, R l l' → l'.memo = none
  note : ∀ {l l'} (e : Event), R l l' → R (l.note e) (l'.note e)

section
variable {R : Ledger τ → Ledger τ → Prop} {l l' : Ledger τ}

theorem Free.start (hR : Free R) (h : R l l') (node : Nat) :
    (l.start g ignorables node).1 = (l'.start g ignorables node).1 ∧
      R (l.start g ignorables node).2 (l'.start g ignorables node).2 := by
  rcases start_alike g ignorables hR.congruence h node with ⟨rule, hrule⟩ | halike
  · rw [hrule, hrule]
    cases hroot : g.root? rule with
    | none =>
      rw [Ledger.enter_undefined hroot, Ledger.enter_undefined hroot]
      exact ⟨rfl, h⟩
    | some root =>
      have hl : l.memo = none := hR.left h
      have hl' : l'.memo = none := hR.right h
      have hsame : l'.reader.place = l.reader.place := (hR.congruence.same h).symm
      rw [Ledger.enter_absent hroot (Ledger.known?_eq_none hl _),
        Ledger.enter_absent hroot (Ledger.known?_eq_none hl' _), Ledger.begun_of_none hl,
        Ledger.begun_of_none hl', hsame, Reader.offset, Reader.offset, hsame]
      exact ⟨rfl, hR.note _ h⟩
  · exact ⟨halike.move, halike.ledger⟩

theorem Free.resume (hR : Free R) (h : R l l') (frame : Frame τ) (part : Option (Fragment τ)) :
    (l.resume frame part).1 = (l'.resume frame part).1 ∧
      R (l.resume frame part).2 (l'.resume frame part).2 := by
  rcases frame.rule_or_plain with ⟨rule, start, rfl⟩ | hplain
  · refine ⟨rfl, ?_⟩
    show R (l.closed rule start part) (l'.closed rule start part)
    rw [Ledger.closed_of_none (hR.left h), Ledger.closed_of_none (hR.right h)]
    exact hR.note _ h
  · have halike := resume_alike hR.congruence h hplain part
    exact ⟨halike.move, halike.ledger⟩

/-- **Without a memory, two runs at the same place do the same**, and take equally long. -/
theorem Settles.transfer (hR : Free R) {k : Nat} {x y : Move τ × Ledger τ}
    {r : Option (Fragment τ)} (h : Settles g ignorables k x r l)
    (hxy : x.1 = y.1 ∧ R x.2 y.2) : ∃ l', Settles g ignorables k y r l' ∧ R l l' :=
  h.lockstep (fun hl node => hR.start hl node) (fun hl frame part => hR.resume hl frame part) hxy

end

/-- the ledgers `l` and `l'` have no memory, and `l'` reads as `l` does after matches up to `e` -/
structure Raised (e : Nat) (l l' : Ledger τ) : Prop where
  left : l.memo = none
  right : l'.memo = none
  reader : l'.reader = l.reader.raise e

theorem Raised.free (e : Nat) : Free (Raised (τ := τ) e) where
  congruence :=
    { same := fun h => by rw [h.reader]; rfl
      here := fun _ => trivial
      moveTo := fun h _ => ⟨h.left, h.right, by
        show Reader.moveTo _ _ = _
        rw [h.reader]
        rfl⟩
      readTo := fun {l l' q} h _ => ⟨h.left, h.right, by
        show (⟨q, max l'.reader.furthest q.offset⟩ : Reader) =
          ⟨q, max (max l.reader.furthest q.offset) e⟩
        rw [h.reader, Nat.max_right_comm]
        rfl⟩
      count := fun _ _ h => ⟨h.left, h.right, h.reader⟩
      note := fun _ _ h => ⟨h.left, h.right, h.reader⟩ }
  left h := h.left
  right h := h.right
  note _ h := ⟨h.left, h.right, h.reader⟩

theorem Raised.refl {l l' : Ledger τ} (h : l.memo = none) (h' : l'.memo = none)
    (hreader : l'.reader = l.reader) : Raised 0 l l' :=
  ⟨h, h', hreader.trans (Reader.raise_eq_self (Nat.zero_le _)).symm⟩

variable {k node : Nat} {l l' m : Ledger τ} {r : Option (Fragment τ)}

/-- **Parsing is the same after matches elsewhere**, however far these have come. -/
theorem Settles.raise {e : Nat} (h : Settles g ignorables k (l.start g ignorables node) r m)
    (hl : Raised e l l') :
    ∃ m', Settles g ignorables k (l'.start g ignorables node) r m' ∧ Raised e m m' :=
  h.transfer (Raised.free e) ((Raised.free e).start hl node)

/-- a run without a memory never has one -/
theorem Settles.forgetful (h : Settles g ignorables k (l.start g ignorables node) r m)
    (hl : l.memo = none) : m.memo = none := by
  obtain ⟨m', -, hm⟩ := h.raise (Raised.refl hl hl rfl)
  exact hm.left

/-- without a memory, the move comes to that result, and the reader stands there then -/
def ReadsTo (g : Graph τ) (ignorables : List Pattern) (x : Move τ × Ledger τ)
    (result : Option (Fragment τ)) (r : Reader) : Prop :=
  ∃ k l, Settles g ignorables k x result l ∧ l.reader = r ∧ l.memo = none

theorem readsTo_answer {l : Ledger τ} (hl : l.memo = none) (result : Option (Fragment τ)) :
    ReadsTo g ignorables (.answer result, l) result l.reader :=
  ⟨0, l, .answer result l, rfl, hl⟩

theorem readsTo_wait {l : Ledger τ} {frame : Frame τ} {node : Nat}
    {part result : Option (Fragment τ)} {r r' : Reader}
    (hpart : ReadsTo g ignorables (l.start g ignorables node) part r)
    (hrest : ∀ l₁ : Ledger τ, l₁.reader = r → l₁.memo = none →
      ReadsTo g ignorables (l₁.resume frame part) result r') :
    ReadsTo g ignorables (.wait frame node, l) result r' := by
  obtain ⟨i, l₁, h₁, hr, hm⟩ := hpart
  obtain ⟨j, l₂, h₂, hr', hm'⟩ := hrest l₁ hr hm
  exact ⟨i + j + 1, l₂, .wait h₁ h₂, hr', hm'⟩

end

end Packrat
