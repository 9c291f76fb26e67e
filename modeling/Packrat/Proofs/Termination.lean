import Packrat.Proofs.Memory
import Packrat.Proofs.Order
import Packrat.Proofs.Session

/-!
# With a memory, parsing comes to an end

An attempt of which nothing is known yet uses up one of finitely many; between attempts, parts have
smaller numbers than what they are part of; and rounds of a repetition that go on use up text.

* `Graph.attempts`     all attempts at or before the end of a text;
* `Ledger.unknown`     how many of them nothing is known of;
* `Bounded p n l`      the run `l` has a memory, stands at or after `p`, and at most `n` attempts are
                       unknown;
* `Comes`              a move comes to a result;
* `Bounded.comes_start`   in a graph where parts come first, every parser comes to a result;
* `session_ends`       so every session with a memory comes to its end.
-/

namespace Packrat

/-! ## attempts of which nothing is known -/

section
variable {τ : Type} {g : Graph τ} {ignorables : List Pattern} {p : Place}

/-- all attempts at the rules of the graph up to that offset -/
def Graph.attempts (g : Graph τ) (limit : Nat) : List Memo.Key :=
  (List.range (limit + 1)).flatMap fun offset =>
    (List.range g.rules.size).map fun rule => ⟨offset, rule⟩

theorem Graph.mem_attempts {key : Memo.Key} {limit root : Nat} (hoffset : key.offset ≤ limit)
    (hroot : g.root? key.rule = some root) : key ∈ g.attempts limit := by
  have hrule : key.rule < g.rules.size := by
    obtain ⟨entry, hentry, -⟩ := Option.map_eq_some_iff.mp hroot
    obtain ⟨h, -⟩ := Array.getElem?_eq_some_iff.mp hentry
    exact h
  refine List.mem_flatMap.mpr ⟨key.offset, List.mem_range.mpr (by omega), ?_⟩
  exact List.mem_map.mpr ⟨key.rule, List.mem_range.mpr hrule, rfl⟩

/-- how many of these attempts nothing is known of -/
def Ledger.unknown (keys : List Memo.Key) (l : Ledger τ) : Nat :=
  keys.countP fun key => (l.known? key).isNone

theorem Ledger.Extends.unknown_le {l l' : Ledger τ} (h : l.Extends p l') (keys : List Memo.Key) :
    l'.unknown keys ≤ l.unknown keys := by
  apply List.countP_mono_left
  intro key _ hkey
  cases hentry : l.known? key with
  | none => rfl
  | some entry =>
    rw [h.known hentry] at hkey
    cases hkey

theorem Ledger.unknown_begun_lt {l : Ledger τ} {rule : Nat} {keys : List Memo.Key}
    (hmemo : l.memo.isSome = true) (habsent : l.known? (l.key rule) = none)
    (hkey : l.key rule ∈ keys) : (l.begun rule).unknown keys < l.unknown keys := by
  have hmono : ∀ key, ((l.begun rule).known? key).isNone = true → (l.known? key).isNone = true := by
    intro key h
    by_cases hne : key = l.key rule
    · rw [hne, habsent]
      rfl
    · rwa [known?_begun_of_ne hne] at h
  obtain ⟨s, t, rfl⟩ := List.append_of_mem hkey
  have hs : (l.begun rule).unknown s ≤ l.unknown s := List.countP_mono_left fun key _ => hmono key
  have ht : (l.begun rule).unknown t ≤ l.unknown t := List.countP_mono_left fun key _ => hmono key
  have hbegun : (l.begun rule).unknown (s ++ l.key rule :: t) =
      (l.begun rule).unknown s + (l.begun rule).unknown t := by
    rw [unknown, List.countP_append, List.countP_cons_of_neg]
    · rfl
    · rw [known?_begun_self hmemo]
      exact Bool.false_ne_true
  have hbefore : l.unknown (s ++ l.key rule :: t) = l.unknown s + (l.unknown t + 1) := by
    rw [unknown, List.countP_append, List.countP_cons_of_pos]
    · rfl
    · rw [habsent]
      rfl
  omega

/-! ## moves that come to a result -/

/-- the run has a memory and stands at or after `p`, and at most `n` attempts are unknown -/
structure Bounded (g : Graph τ) (p : Place) (n : Nat) (l : Ledger τ) : Prop where
  memo : l.memo.isSome = true
  within : l.Within p
  unknown : l.unknown (g.attempts p.limit) ≤ n

theorem Bounded.extends {n : Nat} {l l' : Ledger τ} (hl : Bounded g p n l) (h : l.Extends p l') :
    Bounded g p n l' :=
  ⟨h.memo.trans hl.memo, h.within, Nat.le_trans (h.unknown_le _) hl.unknown⟩

theorem Bounded.moveTo {n : Nat} {l : Ledger τ} (hl : Bounded g p n l) {q : Place} (hq : p ≤ q) :
    Bounded g p n (l.moveTo q) :=
  hl.extends ((Ledger.Extends.refl hl.within).moveTo hq)

/-- the move comes to a result -/
def Comes (g : Graph τ) (ignorables : List Pattern) (x : Move τ × Ledger τ) : Prop :=
  ∃ k r l, Settles g ignorables k x r l

theorem comes_answer (r : Option (Fragment τ)) (l : Ledger τ) : Comes g ignorables (.answer r, l) :=
  ⟨0, r, l, .answer r l⟩

/-- a parser that waits comes to a result, if its part does and it goes on to one -/
theorem Bounded.comes_wait {n node : Nat} {l : Ledger τ} {frame : Frame τ} (hl : Bounded g p n l)
    (hpart : Comes g ignorables (l.start g ignorables node))
    (hrest : ∀ (part : Option (Fragment τ)) (l₁ : Ledger τ), Bounded g p n l₁ →
      Comes g ignorables (l₁.resume frame part)) :
    Comes g ignorables (.wait frame node, l) := by
  obtain ⟨i, part, l₁, h₁⟩ := hpart
  obtain ⟨j, r, l₂, h₂⟩ := hrest part l₁ (hl.extends (h₁.extends_start hl.within))
  exact ⟨i + j + 1, r, l₂, .wait h₁ h₂⟩

theorem comes_endRepetition (bound : Bound) (shape : Shape τ) (count : Nat) (start : Place)
    (collected : List (Tree τ)) (l : Ledger τ) :
    Comes g ignorables (l.endRepetition bound shape count start collected) := by
  rw [Ledger.endRepetition]
  split <;> exact comes_answer _ _

section
variable {n : Nat} {l : Ledger τ} {start : Place} {shape : Shape τ}

theorem Bounded.comes_proceed {parts : List Nat} {collected : List (Tree τ)}
    (hparts : ∀ part ∈ parts, ∀ l, Bounded g p n l → Comes g ignorables (l.start g ignorables part))
    (hl : Bounded g p n l) : Comes g ignorables (l.proceed parts shape start collected) := by
  induction parts generalizing l collected with
  | nil => exact comes_answer _ _
  | cons part parts ih =>
    refine hl.comes_wait (hparts part List.mem_cons_self l hl) fun found l₁ hl₁ => ?_
    cases found with
    | none => exact comes_answer _ _
    | some found =>
      rw [Ledger.resume_sequence]
      exact ih (fun part hpart => hparts part (List.mem_cons_of_mem _ hpart)) hl₁

theorem Bounded.comes_choose {choices : List Nat} (hstart : p ≤ start)
    (hparts : ∀ part ∈ choices, ∀ l, Bounded g p n l →
      Comes g ignorables (l.start g ignorables part))
    (hl : Bounded g p n l) : Comes g ignorables (l.choose choices shape start) := by
  induction choices generalizing l with
  | nil => exact comes_answer _ _
  | cons choice choices ih =>
    refine hl.comes_wait (hparts choice List.mem_cons_self l hl) fun found l₁ hl₁ => ?_
    cases found with
    | none =>
      rw [Ledger.resume_alternative]
      exact ih (fun part hpart => hparts part (List.mem_cons_of_mem _ hpart)) (hl₁.moveTo hstart)
    | some found => exact comes_answer _ _

/-- rounds that go on come closer to the end of the text -/
theorem Bounded.comes_rounds {inner count : Nat} {bound : Bound} {collected : List (Tree τ)}
    (hparts : ∀ l, Bounded g p n l → Comes g ignorables (l.start g ignorables inner))
    (hl : Bounded g p n l) :
    Comes g ignorables
      (.wait (.repetition inner bound shape count start l.reader.place collected) inner, l) := by
  induction hleft : p.limit - l.reader.offset using Nat.strongRecOn
    generalizing l count collected with
  | ind left ih =>
    refine hl.comes_wait (hparts l hl) fun found l₁ hl₁ => ?_
    cases found with
    | none => exact comes_endRepetition _ _ _ _ _ _
    | some found =>
      by_cases hmoved : l.reader.offset < l₁.reader.offset
      · rw [Ledger.resume_moved hmoved]
        have hlimit : l₁.reader.offset ≤ p.limit := Place.offset_le_limit hl₁.within.here
        exact ih (p.limit - l₁.reader.offset) (by omega) hl₁ rfl
      · rw [Ledger.resume_still (Nat.not_lt.mp hmoved)]
        exact comes_endRepetition _ _ _ _ _ _

/-- an attempt comes to a result, if every parser does with fewer attempts unknown -/
theorem Bounded.comes_enter {rule : Nat}
    (hroots : ∀ n' < n, ∀ root (l : Ledger τ), Bounded g p n' l →
      Comes g ignorables (l.start g ignorables root))
    (hl : Bounded g p n l) : Comes g ignorables (l.enter g rule) := by
  cases hroot : g.root? rule with
  | none =>
    rw [Ledger.enter_undefined hroot]
    exact comes_answer _ _
  | some root =>
    cases hentry : l.known? (l.key rule) with
    | none =>
      have hkey : l.key rule ∈ g.attempts p.limit :=
        Graph.mem_attempts (Place.offset_le_limit hl.within.here) hroot
      have hfewer := Ledger.unknown_begun_lt hl.memo hentry hkey
      have hmemo : (l.begun rule).memo.isSome = true := by
        rw [Ledger.begun_memo_isSome]
        exact hl.memo
      have hbegun : Bounded g p ((l.begun rule).unknown (g.attempts p.limit)) (l.begun rule) :=
        ⟨hmemo, hl.within.begun rule, Nat.le_refl _⟩
      have hpart := hroots _ (Nat.lt_of_lt_of_le hfewer hl.unknown) root _ hbegun
      rw [Ledger.enter_absent hroot hentry]
      exact hbegun.comes_wait hpart fun _ _ _ => comes_answer _ _
    | some entry =>
      cases entry with
      | inProgress =>
        rw [Ledger.enter_inProgress hroot hentry]
        exact comes_answer _ _
      | done result stop =>
        rw [Ledger.enter_done hroot hentry]
        exact comes_answer _ _

end

/-! ## whole runs -/

/-- parts have smaller numbers than what they are part of -/
def Graph.PartsFirst (g : Graph τ) : Prop :=
  ∀ (i : Nat) (node : Node τ), g.nodes[i]? = some node → ∀ part ∈ node.operands, part < i

/-- **In a graph where parts come first, every parser comes to a result**, if attempts are
remembered. -/
theorem Bounded.comes_start {n node : Nat} {l : Ledger τ} (hg : g.PartsFirst)
    (hl : Bounded g p n l) : Comes g ignorables (l.start g ignorables node) := by
  induction n using Nat.strongRecOn generalizing node l with
  | ind n ihn =>
    induction node using Nat.strongRecOn generalizing l with
    | ind node ih =>
      have hparts : ∀ found, g.nodes[node]? = some found → ∀ part ∈ found.operands,
          ∀ l, Bounded g p n l → Comes g ignorables (l.start g ignorables part) :=
        fun found hfound part hpart l hl => ih part (hg node found hfound part hpart) hl
      cases hnode : g.nodes[node]? with
      | none =>
        rw [Ledger.start, hnode]
        exact comes_answer _ _
      | some found =>
        cases found with
        | sequence parts shape =>
          rw [Ledger.start_sequence hnode]
          exact hl.comes_proceed (hparts _ hnode)
        | alternative choices shape =>
          rw [Ledger.start_alternative hnode]
          exact hl.comes_choose hl.within.here (hparts _ hnode)
        | repetition inner bound shape =>
          rw [Ledger.start, hnode]
          exact hl.comes_rounds (hparts _ hnode inner List.mem_cons_self)
        | optional inner =>
          rw [Ledger.start, hnode]
          refine hl.comes_wait (hparts _ hnode inner List.mem_cons_self l hl) fun part l₁ _ => ?_
          cases part <;> exact comes_answer _ _
        | leaf source pattern role =>
          rw [Ledger.start, hnode]
          cases pattern with
          | none => exact comes_answer _ _
          | some pattern =>
            show Comes g ignorables (l.readLeaf ignorables pattern role)
            rw [Ledger.readLeaf]
            split <;> exact comes_answer _ _
        | reference name rule =>
          rw [Ledger.start, hnode]
          cases rule with
          | none => exact comes_answer _ _
          | some rule => exact hl.comes_enter fun n' hn' root l hl => ihn n' hn' hl

/-- a request that is made with a memory is answered -/
theorem Ledger.comes_begin {l : Ledger τ} (hg : g.PartsFirst) (hmemo : l.memo.isSome = true)
    (hl : l.Within p) (call : Call) : Comes g ignorables (l.begin g ignorables call) := by
  have hbounded : Bounded g p (l.unknown (g.attempts p.limit)) l := ⟨hmemo, hl, Nat.le_refl _⟩
  cases call with
  | parser node => exact hbounded.comes_start hg
  | rule rule => exact hbounded.comes_enter fun _ _ _ _ hl => hl.comes_start hg

theorem Settles.extends_begin {k : Nat} {l l' : Ledger τ} {call : Call} {r : Option (Fragment τ)}
    (hl : l.Within p) (h : Settles g ignorables k (l.begin g ignorables call) r l') :
    l.Extends p l' := by
  cases call with
  | parser node => exact h.extends_start hl
  | rule rule => exact h.extends_enter hl

theorem Ledger.serves_all {l : Ledger τ} (hg : g.PartsFirst) (hmemo : l.memo.isSome = true)
    (hl : l.Within p) (calls : List Call) : ∃ replies l', l.Serves g ignorables calls replies l' := by
  induction calls generalizing l with
  | nil => exact ⟨[], l, .nil l⟩
  | cons call calls ih =>
    have hcall : Comes g ignorables (l.begin g ignorables call) := l.comes_begin hg hmemo hl call
    obtain ⟨k, r, l₁, h₁⟩ := hcall
    have hextends := h₁.extends_begin hl
    obtain ⟨replies, l₂, h₂⟩ := ih (hextends.memo.trans hmemo) hextends.within
    exact ⟨_, l₂, .cons h₁ h₂⟩

theorem Machine.fresh_within (reader : Reader) (memoize : Bool) :
    (Machine.fresh (τ := τ) reader memoize).ledger.Within reader.place := by
  refine ⟨Place.le_refl _, fun key result stop hkey => ?_⟩
  rw [Machine.fresh_known?] at hkey
  cases hkey

/-- **Whatever the grammar and the text, a session with a memory comes to its end.** -/
theorem session_ends (grammar : Grammar τ) (ignorables : List Pattern) (reader : Reader)
    (calls : List Call) :
    ∃ limit replies m, (Machine.fresh reader true).session? grammar.compile ignorables limit calls =
      some (replies, m) := by
  obtain ⟨replies, l', hserves⟩ := Ledger.serves_all (l := (Machine.fresh reader true).ledger)
    (fun i node hnode => grammar.operand_lt hnode) rfl (Machine.fresh_within reader true) calls
  obtain ⟨limit, m, h, -⟩ := (Machine.session?_iff (Machine.fresh_idle reader true)).mpr hserves
  exact ⟨limit, replies, m, h⟩

end

end Packrat
