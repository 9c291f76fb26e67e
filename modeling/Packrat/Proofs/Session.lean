import Packrat.Proofs.Run

/-!
# Sessions: one machine, several requests

* `Machine.fresh`       a machine that has parsed nothing yet, at any place of a text;
* `Call`                a request: the result of a parser, or of a rule;
* `Reply`               what is seen when it has been answered;
* `Machine.session?`    the replies to several requests in a row, each within the limit;
* `Ledger.Serves`       the same without stacks and limit;
* `Machine.session?_iff`   the two agree.
-/

namespace Packrat

/-- a request to a machine -/
inductive Call where
  /-- the result of the parser with that number -/
  | parser (node : Nat)
  /-- the result of the rule with that number, through the memory -/
  | rule (rule : Nat)

/-- what is seen of a machine that has answered a request -/
structure Reply (τ : Type) where
  result : Option (Fragment τ)
  offset : Nat
  furthest : Nat

namespace Machine
variable {τ : Type} (g : Graph τ) (ignorables : List Pattern)

/-- a machine that has parsed nothing yet, with or without a memory -/
def fresh (reader : Reader) (memoize : Bool) : Machine τ where
  reader := reader
  work := []
  frames := .empty
  results := []
  memo := if memoize then some ∅ else none
  counters := {}
  events := []

/-- the answer to a request, and the state after it -/
def serve? (limit : Nat) (m : Machine τ) : Call → Option (Option (Fragment τ) × Machine τ)
  | .parser node => m.evaluate? g ignorables limit node
  | .rule rule => m.evaluateRule? g ignorables limit rule

/-- the replies to requests in a row, and the state after the last -/
def session? (limit : Nat) (m : Machine τ) : List Call → Option (List (Reply τ) × Machine τ)
  | [] => some ([], m)
  | call :: calls =>
    match m.serve? g ignorables limit call with
    | none => none
    | some (result, m) =>
      match session? limit m calls with
      | none => none
      | some (replies, m') => some (⟨result, m.reader.offset, m.reader.furthest⟩ :: replies, m')

end Machine

namespace Ledger
variable {τ : Type} (g : Graph τ) (ignorables : List Pattern)

/-- the first move for a request -/
def begin (l : Ledger τ) : Call → Move τ × Ledger τ
  | .parser node => l.start g ignorables node
  | .rule rule => l.enter g rule

/-- requests in a row are answered by these replies -/
inductive Serves : Ledger τ → List Call → List (Reply τ) → Ledger τ → Prop
  | nil (l : Ledger τ) : Serves l [] [] l
  | cons {k : Nat} {l l₁ l₂ : Ledger τ} {call : Call} {result : Option (Fragment τ)}
      {calls : List Call} {replies : List (Reply τ)} :
      Settles g ignorables k (l.begin g ignorables call) result l₁ → Serves l₁ calls replies l₂ →
      Serves l (call :: calls) (⟨result, l₁.reader.offset, l₁.reader.furthest⟩ :: replies) l₂

end Ledger

namespace Machine
variable {τ : Type} {g : Graph τ} {ignorables : List Pattern}

theorem fresh_idle (reader : Reader) (memoize : Bool) : (fresh reader memoize : Machine τ).Idle :=
  ⟨rfl, rfl, rfl⟩

theorem fresh_known? (reader : Reader) (memoize : Bool) (key : Memo.Key) :
    (fresh reader memoize : Machine τ).ledger.known? key = none := by
  cases memoize with
  | false => rfl
  | true => exact Std.TreeMap.getElem?_emptyc

/-! ## single requests -/

/-- the machine that starts a parser on request -/
def answering (m : Machine τ) (node : Nat) : Machine τ :=
  { (m.schedule node).observe with work := m.work }.tally fun c => { c with steps := c.steps + 1 }

theorem answering_idle {m : Machine τ} (hm : m.Idle) (node : Nat) : (m.answering node).Idle :=
  ⟨hm.work, hm.frames, hm.results⟩

theorem evaluate?_succ (limit node : Nat) (m : Machine τ) :
    m.evaluate? g ignorables (limit + 1) node =
      ((m.answering node).make (m.ledger.start g ignorables node)).finish? g ignorables limit := by
  rw [evaluate?, finish?, run?]
  show (((m.answering node).start g ignorables node).run? g ignorables limit).map takeResult = _
  rw [start_eq]
  rfl

/-- a request whose move settles is answered within a limit that is high enough -/
theorem serve?_of_settles {k : Nat} {m : Machine τ} {call : Call} {result : Option (Fragment τ)}
    {l : Ledger τ} (hm : m.Idle)
    (h : Settles g ignorables k (m.ledger.begin g ignorables call) result l) :
    ∃ m' : Machine τ, m'.Idle ∧ m'.ledger = l ∧
      ∀ limit, 2 * k + 1 < limit → m.serve? g ignorables limit call = some (result, m') := by
  cases call with
  | parser node =>
    obtain ⟨m', hidle, hl, hfinish⟩ := finish?_make h (answering_idle hm node)
    refine ⟨m', hidle, hl, fun limit hlimit => ?_⟩
    rw [serve?, show limit = (limit - 1) + 1 by omega, evaluate?_succ]
    exact hfinish (limit - 1) (by omega)
  | rule rule =>
    obtain ⟨m', hidle, hl, hfinish⟩ := finish?_make h hm
    refine ⟨m', hidle, hl, fun limit hlimit => ?_⟩
    rw [serve?, evaluateRule?, enter_eq]
    exact hfinish limit (by omega)

/-- the move of a request that is answered settles -/
theorem settles_of_serve? {limit : Nat} {m m' : Machine τ} {call : Call}
    {result : Option (Fragment τ)} (hm : m.Idle)
    (h : m.serve? g ignorables limit call = some (result, m')) :
    m'.Idle ∧ ∃ k, Settles g ignorables k (m.ledger.begin g ignorables call) result m'.ledger := by
  cases call with
  | parser node =>
    cases limit with
    | zero => cases h
    | succ limit =>
      rw [serve?, evaluate?_succ] at h
      exact settles_of_finish? (answering_idle hm node) h
  | rule rule =>
    rw [serve?, evaluateRule?, enter_eq] at h
    exact settles_of_finish? hm h

/-! ## requests in a row -/

theorem session?_of_serves {m : Machine τ} {calls : List Call} {replies : List (Reply τ)}
    {l l' : Ledger τ} (h : l.Serves g ignorables calls replies l') (hm : m.Idle)
    (hl : m.ledger = l) :
    ∃ m' : Machine τ, m'.Idle ∧ m'.ledger = l' ∧
      ∃ least, ∀ limit, least ≤ limit → m.session? g ignorables limit calls = some (replies, m') := by
  induction h generalizing m with
  | nil l => exact ⟨m, hm, hl, 0, fun limit _ => rfl⟩
  | @cons k l l₁ l₂ call result calls replies hcall _ ih =>
    subst hl
    obtain ⟨m₁, hidle₁, rfl, hserve⟩ := serve?_of_settles hm hcall
    obtain ⟨m₂, hidle₂, hl₂, least, hsession⟩ := ih hidle₁ rfl
    refine ⟨m₂, hidle₂, hl₂, max least (2 * k + 2), fun limit hlimit => ?_⟩
    rw [session?, hserve limit (by omega)]
    show (match m₁.session? g ignorables limit calls with
      | none => none
      | some (replies, m') => some (_, m')) = _
    rw [hsession limit (by omega)]
    rfl

theorem serves_of_session? {limit : Nat} {m m' : Machine τ} {calls : List Call}
    {replies : List (Reply τ)} (hm : m.Idle)
    (h : m.session? g ignorables limit calls = some (replies, m')) :
    m'.Idle ∧ m.ledger.Serves g ignorables calls replies m'.ledger := by
  induction calls generalizing m replies with
  | nil =>
    cases h
    exact ⟨hm, .nil _⟩
  | cons call calls ih =>
    rw [session?] at h
    split at h
    · cases h
    · next result m₁ hserve =>
      obtain ⟨hidle, k, hk⟩ := settles_of_serve? hm hserve
      split at h
      · cases h
      · next replies' m₂ hsession =>
        cases h
        obtain ⟨hidle', hserves⟩ := ih hidle hsession
        exact ⟨hidle', .cons hk hserves⟩

/-- **A session comes to an end with these replies exactly when its moves settle that way.** -/
theorem session?_iff {m : Machine τ} {calls : List Call} {replies : List (Reply τ)} {l : Ledger τ}
    (hm : m.Idle) :
    (∃ limit m', m.session? g ignorables limit calls = some (replies, m') ∧ m'.ledger = l) ↔
      m.ledger.Serves g ignorables calls replies l := by
  constructor
  · rintro ⟨limit, m', h, rfl⟩
    exact (serves_of_session? hm h).2
  · intro h
    obtain ⟨m', -, hl, least, hsession⟩ := session?_of_serves h hm rfl
    exact ⟨least, m', hsession least (Nat.le_refl _), hl⟩

end Machine

end Packrat
