import Packrat.Proofs.Lexing
import Packrat.Proofs.Memory

/-!
# Parsers that move on

Which parsers cannot match without moving on is seen from their parts.  Where only such parsers are
repeated, no repetition ever stands still.

* `Expr.offset_of_mem_ends`   a match takes a character where it has to;
* `Node.moves`           each match of the parser moves on, if it does for those named;
* `Graph.Moving`         parsers that move on, as their parts show, and all that are repeated among
                         them;
* `Ledger.Strides`       what is remembered of a parser that moves on has moved on, and so many
                         repetitions have stood still;
* `Settles.strides`      parsing keeps that, and comes further where it has to.
-/

namespace Packrat

/-! ## patterns -/

namespace Expr

/-- **A match never goes back, and one that has to take a character does so.** -/
theorem offset_of_mem_ends (e : Expr) (s : Spot) {t : Spot} (h : t ∈ e.ends s) :
    s.place.offset + e.moves.toNat ≤ t.place.offset := by
  induction e generalizing s t with
  | set cs anyCase =>
    obtain ⟨c, -, -, rfl⟩ := mem_ends_set.mp h
    exact Nat.add_le_add_left (Char.utf8Size_pos _) _
  | seq e f ihe ihf =>
    rw [ends_seq] at h
    obtain ⟨u, hu, ht⟩ := List.mem_flatMap.mp h
    have hle := ihe s hu
    have hle' := ihf u ht
    -- what both parts take adds up, so it is enough if one of them has to
    have hsum : (e.moves || f.moves).toNat ≤ e.moves.toNat + f.moves.toNat := by
      cases e.moves <;> cases f.moves <;> decide
    show s.place.offset + (e.moves || f.moves).toNat ≤ _
    omega
  | alt e f ihe ihf =>
    have hleft : (e.moves && f.moves).toNat ≤ e.moves.toNat := by
      cases e.moves <;> cases f.moves <;> decide
    have hright : (e.moves && f.moves).toNat ≤ f.moves.toNat := by
      cases e.moves <;> cases f.moves <;> decide
    show s.place.offset + (e.moves && f.moves).toNat ≤ _
    rw [ends_alt] at h
    rcases List.mem_append.mp h with h | h
    · have hle := ihe s h
      omega
    · have hle := ihf s h
      omega
  | group index e ih =>
    rw [ends_group] at h
    obtain ⟨u, hu, rfl⟩ := List.mem_map.mp h
    have hle := ih s hu
    exact hle
  | plus greedy e ih =>
    -- the first round takes what it has to, and the further ones do not go back
    obtain ⟨u, hu, hle⟩ := le_of_mem_ends_plus h
    exact Nat.le_trans (ih s hu) (Place.offset_le hle)
  | _ => exact Place.offset_le (le_of_mem_ends h)

end Expr

theorem Pattern.offset_of_matchAt? {pattern : Pattern} {p q : Place} {m : Match}
    (h : pattern.matchAt? p = some (m, q)) : p.offset + pattern.expr.moves.toNat ≤ q.offset := by
  rw [matchAt?] at h
  split at h
  · cases h
  · next s hs =>
    cases h
    rw [Expr.firstEnd?_eq] at hs
    exact pattern.expr.offset_of_mem_ends (Spot.start p) (List.mem_of_head? hs)

theorem offset_of_lookAlong? {ignorables : List Pattern} {pattern : Pattern} (left : List Char)
    {p q : Place} {m : Match} (h : lookAlong? ignorables pattern left p = some (m, q)) :
    p.offset + pattern.expr.moves.toNat ≤ q.offset := by
  induction left generalizing p with
  | nil => exact Pattern.offset_of_matchAt? h
  | cons c left ih =>
    rw [lookAlong?] at h
    split at h
    · next found hfound =>
      cases h
      exact Pattern.offset_of_matchAt? hfound
    · split at h
      · cases h
      · next r hr =>
        have hskip := Place.offset_le (le_skipOne? hr)
        have hle := ih h
        omega

/-! ## parsers -/

section
variable {τ : Type}

/-- each match of the parser moves on, if those of the parsers that `moves` names do -/
def Node.moves (g : Graph τ) (moves : Nat → Bool) : Node τ → Bool
  | .sequence parts _ => parts.any moves
  | .alternative choices _ => choices.all moves
  | .repetition _ bound _ => bound == .oneOrMore
  | .optional _ => false
  | .leaf _ pattern _ => pattern.all (·.expr.moves)
  | .reference _ rule => (rule.bind g.root?).all moves

/-- `moves` names parsers that move on, as their parts show, and all that are repeated -/
structure Graph.Moving (g : Graph τ) (moves : Nat → Bool) : Prop where
  node : ∀ {i : Nat} {node : Node τ}, g.nodes[i]? = some node → moves i = true →
    node.moves g moves = true
  repeated : ∀ {i inner : Nat} {bound : Bound} {shape : Shape τ},
    g.nodes[i]? = some (.repetition inner bound shape) → moves inner = true

/-- the least number of bytes that the parser comes further with that result -/
def gain (moves : Nat → Bool) (node : Nat) (result : Option (Fragment τ)) : Nat :=
  (result.isSome && moves node).toNat

/-- what is remembered has come as far as it had to, and `n` repetitions have stood still -/
structure Ledger.Strides (g : Graph τ) (moves : Nat → Bool) (n : Nat) (l : Ledger τ) : Prop where
  known : ∀ {key : Memo.Key} {result : Option (Fragment τ)} {stop : Place} {root : Nat},
    l.known? key = some (.done result stop) → g.root? key.rule = some root →
    key.offset + gain moves root result ≤ stop.offset
  stops : l.tally.zeroWidthStops = n

namespace Ledger.Strides
variable {g : Graph τ} {moves : Nat → Bool} {n : Nat} {l : Ledger τ}

theorem moveTo (h : l.Strides g moves n) (p : Place) : (l.moveTo p).Strides g moves n :=
  ⟨h.known, h.stops⟩

theorem begun (h : l.Strides g moves n) (rule : Nat) : (l.begun rule).Strides g moves n := by
  constructor
  · intro key result stop root hkey hroot
    by_cases hne : key = l.key rule
    · have hmemo : l.memo.isSome = true := begun_memo_isSome l rule ▸ isSome_of_known? hkey
      rw [hne, known?_begun_self hmemo] at hkey
      cases hkey
    · rw [known?_begun_of_ne hne] at hkey
      exact h.known hkey hroot
  · rw [Ledger.begun]
    split <;> exact h.stops

/-- an attempt that has come as far as it had to may be remembered -/
theorem closed (h : l.Strides g moves n) {rule root : Nat} {start : Place}
    {result : Option (Fragment τ)} (hroot : g.root? rule = some root)
    (hgain : start.offset + gain moves root result ≤ l.reader.offset) :
    (l.closed rule start result).Strides g moves n := by
  refine ⟨fun {key} result' stop root' hkey hroot' => ?_, h.stops⟩
  by_cases hne : key = ⟨start.offset, rule⟩
  · subst hne
    cases (known?_closed_self (isSome_of_closed hkey) rule start result).symm.trans hkey
    cases hroot.symm.trans hroot'
    exact hgain
  · rw [known?_closed_of_ne hne] at hkey
    exact h.known hkey hroot'

end Ledger.Strides

/-! ## runs -/

variable {g : Graph τ} {ignorables : List Pattern} {moves : Nat → Bool} {n k i : Nat}
  {l l' : Ledger τ} {result : Option (Fragment τ)} {shape : Shape τ} {start : Place}

/-- runs of fewer than `k` waits keep what is remembered, stand still nowhere, and come as far as
they have to -/
def StridesBelow (g : Graph τ) (ignorables : List Pattern) (moves : Nat → Bool) (n k : Nat) : Prop :=
  ∀ {i : Nat}, i < k → ∀ {l l' : Ledger τ} {node : Nat} {result : Option (Fragment τ)},
    l.Strides g moves n → Settles g ignorables i (l.start g ignorables node) result l' →
    l'.Strides g moves n ∧ l.reader.offset + gain moves node result ≤ l'.reader.offset

theorem StridesBelow.proceed (hk : StridesBelow g ignorables moves n k) {parts : List Nat}
    {collected : List (Tree τ)} (hi : i ≤ k) (hl : l.Strides g moves n)
    (hstart : start.offset ≤ l.reader.offset)
    (h : Settles g ignorables i (l.proceed parts shape start collected) result l') :
    l'.Strides g moves n ∧ start.offset ≤ l'.reader.offset ∧
      (result.isSome = true → l.reader.offset + (parts.any moves).toNat ≤ l'.reader.offset) := by
  induction parts generalizing i l collected with
  | nil =>
    obtain ⟨-, rfl, rfl⟩ := h.answer_inv
    exact ⟨hl, hstart, fun _ => Nat.le_refl _⟩
  | cons part parts ih =>
    obtain ⟨i₁, j, found, l₁, h₁, h₂, rfl⟩ := h.wait_inv
    obtain ⟨hl₁, hgain⟩ := hk (by omega) hl h₁
    cases found with
    | none =>
      obtain ⟨-, rfl, rfl⟩ := h₂.answer_inv
      exact ⟨hl₁.moveTo start, Nat.le_refl _, fun h => nomatch h⟩
    | some found =>
      rw [Ledger.resume_sequence] at h₂
      obtain ⟨hl', hle, hparts⟩ := ih (by omega) hl₁ (by omega) h₂
      refine ⟨hl', hle, fun hresult => ?_⟩
      have hrest := hparts hresult
      have hpart : l.reader.offset + (moves part).toNat ≤ l₁.reader.offset := hgain
      have hsum : (moves part || parts.any moves).toNat ≤
          (moves part).toNat + (parts.any moves).toNat := by
        cases moves part <;> cases parts.any moves <;> decide
      rw [List.any_cons]
      omega

theorem StridesBelow.choose (hk : StridesBelow g ignorables moves n k) {choices : List Nat}
    (hi : i ≤ k) (hl : l.Strides g moves n) (hstart : l.reader.offset = start.offset)
    (h : Settles g ignorables i (l.choose choices shape start) result l') :
    l'.Strides g moves n ∧
      start.offset + (result.isSome && choices.all moves).toNat ≤ l'.reader.offset := by
  induction choices generalizing i l with
  | nil =>
    obtain ⟨-, rfl, rfl⟩ := h.answer_inv
    exact ⟨hl, Nat.le_of_eq hstart.symm⟩
  | cons choice choices ih =>
    obtain ⟨i₁, j, found, l₁, h₁, h₂, rfl⟩ := h.wait_inv
    obtain ⟨hl₁, hgain⟩ := hk (by omega) hl h₁
    rw [List.all_cons]
    cases found with
    | none =>
      rw [Ledger.resume_alternative] at h₂
      obtain ⟨hl', hle⟩ := ih (by omega) (hl₁.moveTo start) rfl h₂
      have hless : (result.isSome && (moves choice && choices.all moves)).toNat ≤
          (result.isSome && choices.all moves).toNat := by
        cases result.isSome <;> cases moves choice <;> cases choices.all moves <;> decide
      exact ⟨hl', by omega⟩
    | some found =>
      obtain ⟨-, rfl, rfl⟩ := h₂.answer_inv
      have hless : (moves choice && choices.all moves).toNat ≤ (moves choice).toNat := by
        cases moves choice <;> cases choices.all moves <;> decide
      have hle : l.reader.offset + (moves choice).toNat ≤ l'.reader.offset := hgain
      refine ⟨hl₁, ?_⟩
      show start.offset + (moves choice && choices.all moves).toNat ≤ _
      omega

/-- each round of a parser that moves on takes a byte at least -/
theorem StridesBelow.rounds (hk : StridesBelow g ignorables moves n k) {inner count : Nat}
    {bound : Bound} {collected : List (Tree τ)} (hinner : moves inner = true) (hi : i ≤ k)
    (hl : l.Strides g moves n) (hstart : start.offset + count ≤ l.reader.offset)
    (h : Settles g ignorables i
      (.wait (.repetition inner bound shape count start l.reader.place collected) inner, l)
      result l') :
    l'.Strides g moves n ∧
      start.offset + (result.isSome && bound == .oneOrMore).toNat ≤ l'.reader.offset := by
  -- by induction on the waits that are left, with at least a byte behind each round
  induction i using Nat.strongRecOn generalizing l count collected with
  | ind i ih =>
    obtain ⟨i₁, j, found, l₁, h₁, h₂, rfl⟩ := h.wait_inv
    obtain ⟨hl₁, hgain⟩ := hk (by omega) hl h₁
    cases found with
    | none =>
      have hle : l.reader.offset ≤ l₁.reader.offset := by omega
      have hend : Settles g ignorables j (l₁.endRepetition bound shape count start collected)
        result l' := h₂
      rw [Ledger.endRepetition] at hend
      split at hend
      · obtain ⟨-, rfl, rfl⟩ := hend.answer_inv
        exact ⟨hl₁.moveTo start, Nat.le_refl _⟩
      · next henough =>
        obtain ⟨-, rfl, rfl⟩ := hend.answer_inv
        have hbound : (bound == Bound.oneOrMore).toNat = bound.least := by cases bound <;> rfl
        refine ⟨hl₁, ?_⟩
        show start.offset + (bound == Bound.oneOrMore).toNat ≤ _
        omega
    | some found =>
      have hmoved : l.reader.offset < l₁.reader.offset := by
        have hle : l.reader.offset + (moves inner).toNat ≤ l₁.reader.offset := hgain
        rw [hinner] at hle
        exact hle
      rw [Ledger.resume_moved hmoved] at h₂
      exact ih j (by omega) (by omega) hl₁ (by omega) h₂

theorem StridesBelow.enter (hk : StridesBelow g ignorables moves n k) {rule : Nat} (hi : i ≤ k)
    (hl : l.Strides g moves n) (h : Settles g ignorables i (l.enter g rule) result l') :
    l'.Strides g moves n ∧
      l.reader.offset + (result.isSome && (g.root? rule).all moves).toNat ≤ l'.reader.offset := by
  cases hroot : g.root? rule with
  | none =>
    rw [Ledger.enter_undefined hroot] at h
    obtain ⟨-, rfl, rfl⟩ := h.answer_inv
    exact ⟨hl, Nat.le_refl _⟩
  | some root =>
    cases hentry : l.known? (l.key rule) with
    | none =>
      rw [Ledger.enter_absent hroot hentry] at h
      obtain ⟨i₁, l₁, h₁, rfl, rfl⟩ := h.rule_inv
      obtain ⟨hl₁, hgain⟩ := hk (by omega) (hl.begun rule) h₁
      rw [Ledger.begun_reader] at hgain
      exact ⟨hl₁.closed hroot hgain, hgain⟩
    | some entry =>
      cases entry with
      | inProgress =>
        rw [Ledger.enter_inProgress hroot hentry] at h
        obtain ⟨-, rfl, rfl⟩ := h.answer_inv
        exact ⟨⟨hl.known, hl.stops⟩, Nat.le_refl _⟩
      | done found stop =>
        -- no reading is done here: that the match has moved on is known from when it was remembered
        rw [Ledger.enter_done hroot hentry] at h
        obtain ⟨-, rfl, rfl⟩ := h.answer_inv
        exact ⟨⟨hl.known, hl.stops⟩, hl.known hentry hroot⟩

theorem Graph.Moving.gain_le (hg : g.Moving moves) {node : Nat} {found : Node τ}
    (hnode : g.nodes[node]? = some found) (result : Option (Fragment τ)) :
    gain moves node result ≤ (result.isSome && found.moves g moves).toNat := by
  rw [gain]
  cases hmoves : moves node with
  | false => simp
  | true => rw [hg.node hnode hmoves]

/-- **Where all that is repeated moves on, parsing stands still nowhere**, and a parser that moves on
comes further with each match, remembered or not. -/
theorem Settles.strides (hg : g.Moving moves) {node : Nat} (hl : l.Strides g moves n)
    (h : Settles g ignorables k (l.start g ignorables node) result l') :
    l'.Strides g moves n ∧ l.reader.offset + gain moves node result ≤ l'.reader.offset := by
  induction k using Nat.strongRecOn generalizing l l' node result with
  | ind k ih =>
    have hk : StridesBelow g ignorables moves n k := fun hi _ _ _ _ hl h => ih _ hi hl h
    cases hnode : g.nodes[node]? with
    | none =>
      rw [Ledger.start, hnode] at h
      obtain ⟨-, rfl, rfl⟩ := h.answer_inv
      exact ⟨hl, Nat.le_refl _⟩
    | some found =>
      have hgain := hg.gain_le hnode result
      cases found with
      | sequence parts shape =>
        rw [Ledger.start_sequence hnode] at h
        obtain ⟨hl', hle, hparts⟩ := hk.proceed (Nat.le_refl _) hl (Nat.le_refl _) h
        refine ⟨hl', ?_⟩
        cases result with
        | none => exact hle
        | some r =>
          have hle' := hparts rfl
          have hgain : gain moves node (some r) ≤ (parts.any moves).toNat := hgain
          omega
      | alternative choices shape =>
        rw [Ledger.start_alternative hnode] at h
        obtain ⟨hl', hle⟩ := hk.choose (Nat.le_refl _) hl rfl h
        exact ⟨hl', Nat.le_trans (Nat.add_le_add_left hgain _) hle⟩
      | repetition inner bound shape =>
        rw [Ledger.start, hnode] at h
        obtain ⟨hl', hle⟩ := hk.rounds (hg.repeated hnode) (Nat.le_refl _) hl (Nat.le_refl _) h
        exact ⟨hl', Nat.le_trans (Nat.add_le_add_left hgain _) hle⟩
      | optional inner =>
        rw [Ledger.start, hnode] at h
        obtain ⟨i, j, part, l₁, h₁, h₂, rfl⟩ := h.wait_inv
        obtain ⟨hl₁, hle⟩ := hk (by omega) hl h₁
        have hnone : gain moves node result ≤ 0 := by
          have hoptional : (result.isSome && false).toNat = 0 := by rw [Bool.and_false]; rfl
          exact Nat.le_trans hgain (Nat.le_of_eq hoptional)
        have hl' : l' = l₁ := by
          cases part with
          | none => exact h₂.answer_inv.2.2
          | some found => exact h₂.answer_inv.2.2
        subst hl'
        exact ⟨hl₁, by omega⟩
      | leaf source pattern role =>
        rw [Ledger.start, hnode] at h
        cases pattern with
        | none =>
          obtain ⟨-, rfl, rfl⟩ := h.answer_inv
          exact ⟨hl, Nat.le_refl _⟩
        | some pattern =>
          have hread : Settles g ignorables k (l.readLeaf ignorables pattern role) result l' := h
          rw [Ledger.readLeaf] at hread
          split at hread
          · obtain ⟨-, rfl, rfl⟩ := hread.answer_inv
            exact ⟨⟨hl.known, hl.stops⟩, Nat.le_refl _⟩
          · next m reader hlook =>
            obtain ⟨-, rfl, rfl⟩ := hread.answer_inv
            obtain ⟨q, hq, rfl⟩ := Reader.look?_eq_some.mp hlook
            have hle := offset_of_lookAlong? _ hq
            exact ⟨⟨hl.known, hl.stops⟩, Nat.le_trans (Nat.add_le_add_left hgain _) hle⟩
      | reference name rule =>
        rw [Ledger.start, hnode] at h
        cases rule with
        | none =>
          obtain ⟨-, rfl, rfl⟩ := h.answer_inv
          exact ⟨⟨hl.known, hl.stops⟩, Nat.le_refl _⟩
        | some rule =>
          obtain ⟨hl', hle⟩ := hk.enter (Nat.le_refl _) hl h
          exact ⟨hl', Nat.le_trans (Nat.add_le_add_left hgain _) hle⟩

end

end Packrat
