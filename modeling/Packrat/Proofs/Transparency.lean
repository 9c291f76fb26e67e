import Packrat.Parse
import Packrat.Proofs.Mirror
import Packrat.Proofs.Session

/-!
# A memory does not show

* `Mirrors.fresh`      two machines that have parsed nothing yet mirror each other;
* `Mirrors.serves_off`, `Mirrors.serves_on`   requests in a row are answered alike with a memory that
  cuts nothing off and without one;
* `Graph.shows_iff`    what is seen of parsing a text with a rule, by the moves of one request;
* `memory_transparent`   without a memory there are replies exactly if there are with one that cuts
  nothing off, and they are the same.
-/

namespace Packrat

section
variable {τ : Type} {g : Graph τ} {ignorables : List Pattern} {p : Place} {c : Nat}
  {l₀ l : Ledger τ} {calls : List Call} {replies : List (Reply τ)}

/-- no attempt is under way -/
def NoKey (_ : Memo.Key) : Prop := False

theorem Mirrors.fresh (g : Graph τ) (ignorables : List Pattern) (reader : Reader) :
    Mirrors g ignorables reader.place 0 NoKey (Machine.fresh reader false).ledger
      (Machine.fresh reader true).ledger := by
  refine ⟨rfl, rfl, rfl, Place.le_refl _, rfl, ?_, ?_⟩
  · intro key result stop hkey
    rw [Machine.fresh_known?] at hkey
    cases hkey
  · intro key hkey
    rw [Machine.fresh_known?] at hkey
    cases hkey

/-! ## requests -/

theorem Mirrors.begin_off {k : Nat} {call : Call} {r : Option (Fragment τ)} {m : Ledger τ}
    (hl : Mirrors g ignorables p c NoKey l₀ l) (hcuts : m.tally.recursionCuts = c)
    (h : Settles g ignorables k (l.begin g ignorables call) r m) :
    ∃ k m₀, Settles g ignorables k (l₀.begin g ignorables call) r m₀ ∧
      Mirrors g ignorables p c NoKey m₀ m := by
  cases call with
  | parser node => exact Unfolds.start hl hcuts h h.unfolds
  | rule rule => exact Unfolds.enter hl hcuts h h.unfolds

theorem Mirrors.begin_on {k : Nat} {call : Call} {r : Option (Fragment τ)} {m : Ledger τ}
    (hl : Mirrors g ignorables p c NoKey l₀ l)
    (h : Settles g ignorables k (l₀.begin g ignorables call) r m) :
    ∃ k' m', Settles g ignorables k' (l.begin g ignorables call) r m' ∧
      Mirrors g ignorables p c NoKey m m' := by
  have hcostly : Costly g ignorables p (k + 1) NoKey := fun hkey => hkey.elim
  cases call with
  | parser node => exact Carries.start hl hcostly h h.carries
  | rule rule => exact Carries.enter hl hcostly h h.carries

theorem Ledger.cuts_le_begin (g : Graph τ) (ignorables : List Pattern) (l : Ledger τ) (call : Call) :
    l.tally.recursionCuts ≤ (l.begin g ignorables call).2.tally.recursionCuts := by
  cases call with
  | parser node => exact l.cuts_le_start g ignorables node
  | rule rule => exact l.cuts_le_enter g rule

theorem Ledger.Serves.cuts_le {l' : Ledger τ} (h : l.Serves g ignorables calls replies l') :
    l.tally.recursionCuts ≤ l'.tally.recursionCuts := by
  induction h with
  | nil l => exact Nat.le_refl _
  | @cons k l l₁ l₂ call result calls replies hcall _ ih =>
    exact Nat.le_trans (Nat.le_trans (l.cuts_le_begin g ignorables call) hcall.cuts_le) ih

/-- **Replies that come with a memory, and no cut, come without one.** -/
theorem Mirrors.serves_off {l' : Ledger τ} (h : l.Serves g ignorables calls replies l')
    (hl : Mirrors g ignorables p c NoKey l₀ l) (hcuts : l'.tally.recursionCuts = c) :
    ∃ l₀', l₀.Serves g ignorables calls replies l₀' := by
  induction h generalizing l₀ with
  | nil l => exact ⟨l₀, .nil l₀⟩
  | @cons k l l₁ l₂ call result calls replies hcall hrest ih =>
    have hcuts₁ : l₁.tally.recursionCuts = c := by
      have hle := hl.cuts ▸ l.cuts_le_begin g ignorables call
      have hle₁ := hcall.cuts_le
      have hle₂ := hrest.cuts_le
      omega
    obtain ⟨k₀, m₀, hk₀, hm⟩ := hl.begin_off hcuts₁ hcall
    obtain ⟨l₀', hl₀'⟩ := ih hm hcuts
    rw [← hm.reader]
    exact ⟨l₀', .cons hk₀ hl₀'⟩

/-- **Replies that come without a memory come with one, and no cut.** -/
theorem Mirrors.serves_on {l₀' : Ledger τ} (h : l₀.Serves g ignorables calls replies l₀')
    (hl : Mirrors g ignorables p c NoKey l₀ l) :
    ∃ l', l.Serves g ignorables calls replies l' ∧ l'.tally.recursionCuts = c := by
  induction h generalizing l with
  | nil l₀ => exact ⟨l, .nil l, hl.cuts⟩
  | @cons k l₀ l₁₀ l₂₀ call result calls replies hcall hrest ih =>
    obtain ⟨k', m, hk', hm⟩ := hl.begin_on hcall
    obtain ⟨l', hl', hcuts⟩ := ih hm
    rw [hm.reader]
    exact ⟨l', .cons hk' hl', hcuts⟩

/-! ## texts -/

namespace Graph

/-- what is seen of parsing a text with a rule, given the result of the rule and the reader after it -/
def seenOf (g : Graph τ) (rule : Nat) (text : String) (options : Options)
    (result : Option (Fragment τ)) (reader : Reader) : Except ParseError (Tree τ) × Nat × Bool :=
  let ignorables := g.ignorablesFor options
  let trailing := result.isSome && !reader.atEnd ignorables
  (g.resultOf rule text.toList options ignorables reader trailing result, reader.offset, trailing)

/-- the first move of parsing a text with a rule -/
def opening (g : Graph τ) (rule : Nat) (text : String) (options : Options) : Move τ × Ledger τ :=
  (Machine.fresh (Reader.first text.toList) options.memoize).ledger.begin g
    (g.ignorablesFor options) (.rule rule)

/-- parsing a text with a rule comes to an end with this to be seen, and so many cuts -/
def Shows (g : Graph τ) (rule : Nat) (text : String) (options : Options) (cuts : Nat)
    (seen : Except ParseError (Tree τ) × Nat × Bool) : Prop :=
  ∃ limit o, g.run? limit rule text options = some o ∧ o.counters.recursionCuts = cuts ∧
    (o.result, o.consumed, o.trailing) = seen

theorem shows_iff {rule : Nat} {text : String} {options : Options} {cuts : Nat}
    {seen : Except ParseError (Tree τ) × Nat × Bool} :
    g.Shows rule text options cuts seen ↔
      ∃ k result l, Settles g (g.ignorablesFor options) k (g.opening rule text options) result l ∧
        l.tally.recursionCuts = cuts ∧ g.seenOf rule text options result l.reader = seen := by
  have hidle : (Machine.fresh (Reader.first text.toList) options.memoize : Machine τ).Idle :=
    Machine.fresh_idle _ _
  constructor
  · rintro ⟨limit, o, hrun, hcuts, hseen⟩
    rw [run?] at hrun
    split at hrun
    · cases hrun
    · next result m hserve =>
      cases hrun
      obtain ⟨-, k, hk⟩ := Machine.settles_of_serve? hidle
        (show Machine.serve? g _ limit _ (.rule rule) = some (result, m) from hserve)
      exact ⟨k, result, m.ledger, hk, hcuts, hseen⟩
  · rintro ⟨k, result, l, hk, hcuts, hseen⟩
    obtain ⟨m, -, rfl, hserve⟩ := Machine.serve?_of_settles hidle hk
    have hm : (Machine.first text.toList options.memoize).evaluateRule? g
        (g.ignorablesFor options) (2 * k + 2) rule = some (result, m) := hserve _ (by omega)
    obtain ⟨o, hrun, hcuts', hseen'⟩ : ∃ o, g.run? (2 * k + 2) rule text options = some o ∧
        o.counters.recursionCuts = m.counters.recursionCuts ∧
        (o.result, o.consumed, o.trailing) = g.seenOf rule text options result m.reader := by
      rw [run?, hm]
      exact ⟨_, rfl, rfl, rfl⟩
    exact ⟨2 * k + 2, o, hrun, hcuts'.trans hcuts, hseen'.trans hseen⟩

end Graph

/-- **A memory does not show, unless it cuts something off.**  Requests in a row are answered without
a memory exactly if they are answered with one and nothing is cut off, and by the same replies.  So a
text is parsed alike with and without a memory. -/
theorem memory_transparent (g : Graph τ) :
    (∀ (ignorables : List Pattern) (reader : Reader) (calls : List Call) (replies : List (Reply τ)),
      (∃ limit m, (Machine.fresh reader false).session? g ignorables limit calls =
          some (replies, m)) ↔
        ∃ limit m, (Machine.fresh reader true).session? g ignorables limit calls =
          some (replies, m) ∧ m.counters.recursionCuts = 0) ∧
    ∀ (rule : Nat) (text : String) (options : Options)
      (seen : Except ParseError (Tree τ) × Nat × Bool),
      (∃ limit o, g.run? limit rule text { options with memoize := false } = some o ∧
          (o.result, o.consumed, o.trailing) = seen) ↔
        ∃ limit o, g.run? limit rule text { options with memoize := true } = some o ∧
          o.counters.recursionCuts = 0 ∧ (o.result, o.consumed, o.trailing) = seen := by
  constructor
  · intro ignorables reader calls replies
    have hmirrors := Mirrors.fresh g ignorables reader
    constructor
    · rintro ⟨limit, m, h⟩
      obtain ⟨-, hserves⟩ := Machine.serves_of_session? (Machine.fresh_idle reader false) h
      obtain ⟨l', hl', hcuts⟩ := hmirrors.serves_on hserves
      obtain ⟨limit', m', h', rfl⟩ :=
        (Machine.session?_iff (Machine.fresh_idle reader true)).mpr hl'
      exact ⟨limit', m', h', hcuts⟩
    · rintro ⟨limit, m, h, hcuts⟩
      obtain ⟨-, hserves⟩ := Machine.serves_of_session? (Machine.fresh_idle reader true) h
      obtain ⟨l', hl'⟩ := hmirrors.serves_off hserves hcuts
      obtain ⟨limit', m', h', -⟩ :=
        (Machine.session?_iff (Machine.fresh_idle reader false)).mpr hl'
      exact ⟨limit', m', h'⟩
  · intro rule text options seen
    have hmirrors := Mirrors.fresh g (g.ignorablesFor options) (Reader.first text.toList)
    constructor
    · rintro ⟨limit, o, hrun, hseen⟩
      obtain ⟨k, result, l, hk, -, hl⟩ := Graph.shows_iff.mp ⟨limit, o, hrun, rfl, hseen⟩
      obtain ⟨k', l', hk', hl'⟩ := hmirrors.begin_on hk
      rw [hl'.reader] at hl
      exact Graph.shows_iff.mpr ⟨k', result, l', hk', hl'.cuts, hl⟩
    · rintro ⟨limit, o, hrun, hcuts, hseen⟩
      obtain ⟨k, result, l, hk, hcuts, hl⟩ := Graph.shows_iff.mp ⟨limit, o, hrun, hcuts, hseen⟩
      obtain ⟨k', l', hk', hl'⟩ := hmirrors.begin_off hcuts hk
      rw [← hl'.reader] at hl
      have hshows : g.Shows rule text { options with memoize := false } _ seen :=
        Graph.shows_iff.mpr ⟨k', result, l', hk', rfl, hl⟩
      obtain ⟨limit', o', hrun', -, hseen'⟩ := hshows
      exact ⟨limit', o', hrun', hseen'⟩

end

end Packrat
