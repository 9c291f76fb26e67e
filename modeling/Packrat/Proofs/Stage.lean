import Mathlib.Logic.Relation
import Packrat.Proofs.Moves
import Packrat.Proofs.Session

/-!
# A session step by step

A machine that answers a request has one thing to do at a time: a parser is to be started, or a
result is to be handed to whoever waits.

* `Machine.request`     the state in which a request is taken up;
* `Machine.Goes`        one step of a run, and `Machine.Steps` any number of them;
* `Machine.Visits`      the states that a machine comes through while it answers requests, with the
                        matches made so far;
* `Task`, `Stage`       what a machine does next, with the frames that wait and the ledger;
* `Stage.Step`          what one step does to a stage;
* `Machine.At`          the machine is at that stage, and its stacks hold nothing else;
* `Machine.At.goes`, `Machine.At.finished`   the steps of a machine are those of its stage.
-/

namespace Packrat

/-! ## what a machine does in a session -/

/-- what is read when the parser with that number is started, if it is a leaf that matches -/
def Ledger.reads? {τ : Type} (g : Graph τ) (ignorables : List Pattern) (l : Ledger τ) (node : Nat) :
    Option (Match × Reader) :=
  match g.nodes[node]? with
  | some (.leaf _ (some pattern) _) => l.reader.look? ignorables pattern
  | _ => none

namespace Machine
variable {τ : Type} (g : Graph τ) (ignorables : List Pattern)

/-- the state in which a request is taken up -/
def request (m : Machine τ) : Call → Machine τ
  | .parser node => m.schedule node
  | .rule rule => m.enter g rule

/-- one step of a run -/
def Goes (m m' : Machine τ) : Prop := m.observe.advance g ignorables = .running m'

/-- steps of one run -/
def Steps : Machine τ → Machine τ → Prop := Relation.ReflTransGen (Goes g ignorables)

/-- what the next step reads -/
def reads? (m : Machine τ) : Option (Match × Reader) :=
  match m.work with
  | [] => none
  | node :: _ => m.ledger.reads? g ignorables node

/-- the states that a machine comes through while it answers requests, each taken up when there is
nothing else to do, and the matches made on the way, the latest first -/
inductive Visits (m₀ : Machine τ) : List Match → Machine τ → Prop
  | first : Visits m₀ [] m₀
  | request {found : List Match} {m : Machine τ} (call : Call) : Visits m₀ found m → m.Idle →
      Visits m₀ found (m.request g call)
  | step {found : List Match} {m m' : Machine τ} : Visits m₀ found m → Goes g ignorables m m' →
      Visits m₀ (((m.reads? g ignorables).map Prod.fst).toList ++ found) m'
  | finish {found : List Match} {m m' : Machine τ} : Visits m₀ found m →
      m.observe.advance g ignorables = .finished m' → Visits m₀ found m'.takeResult.2

variable {g ignorables}

theorem serve?_eq (limit : Nat) (m : Machine τ) (call : Call) :
    m.serve? g ignorables limit call = (m.request g call).finish? g ignorables limit := by
  cases call <;> rfl

/-- a run that comes to an end goes to its last state step by step -/
theorem steps_of_run? {limit : Nat} {m m' : Machine τ} (h : m.run? g ignorables limit = some m') :
    ∃ m₁, Steps g ignorables m m₁ ∧ m₁.observe.advance g ignorables = .finished m' := by
  induction limit generalizing m with
  | zero => cases h
  | succ limit ih =>
    rw [run?] at h
    split at h
    · next m₁ hadvance =>
      cases h
      exact ⟨m, .refl, hadvance⟩
    · next m₁ hadvance =>
      obtain ⟨m₂, hsteps, hend⟩ := ih h
      exact ⟨m₂, .head hadvance hsteps, hend⟩

theorem steps_of_serve? {limit : Nat} {m m' : Machine τ} {call : Call}
    {result : Option (Fragment τ)} (h : m.serve? g ignorables limit call = some (result, m')) :
    ∃ m₁ m₂, Steps g ignorables (m.request g call) m₁ ∧
      m₁.observe.advance g ignorables = .finished m₂ ∧ m₂.takeResult = (result, m') := by
  rw [serve?_eq, finish?] at h
  obtain ⟨m₂, hrun, htake⟩ := Option.map_eq_some_iff.mp h
  obtain ⟨m₁, hsteps, hend⟩ := steps_of_run? hrun
  exact ⟨m₁, m₂, hsteps, hend, htake⟩

theorem Visits.steps {m₀ m m' : Machine τ} {found : List Match}
    (h : Visits g ignorables m₀ found m) (hsteps : Steps g ignorables m m') :
    ∃ found', Visits g ignorables m₀ found' m' := by
  induction hsteps with
  | refl => exact ⟨found, h⟩
  | tail _ hgoes ih =>
    obtain ⟨found', h'⟩ := ih
    exact ⟨_, h'.step hgoes⟩

theorem Visits.serve? {m₀ m m' : Machine τ} {found : List Match} {limit : Nat} {call : Call}
    {result : Option (Fragment τ)} (h : Visits g ignorables m₀ found m) (hm : m.Idle)
    (hserve : m.serve? g ignorables limit call = some (result, m')) :
    ∃ found', Visits g ignorables m₀ found' m' := by
  obtain ⟨m₁, m₂, hsteps, hend, htake⟩ := steps_of_serve? hserve
  obtain ⟨found', h₁⟩ := (h.request call hm).steps hsteps
  have hfinish : Visits g ignorables m₀ found' m₂.takeResult.2 := h₁.finish hend
  rw [htake] at hfinish
  exact ⟨found', hfinish⟩

/-- what `session?` comes to is visited -/
theorem Visits.session? {m₀ m m' : Machine τ} {found : List Match} {limit : Nat}
    {calls : List Call} {replies : List (Reply τ)} (h : Visits g ignorables m₀ found m)
    (hm : m.Idle) (hsession : m.session? g ignorables limit calls = some (replies, m')) :
    ∃ found', Visits g ignorables m₀ found' m' := by
  induction calls generalizing m found replies with
  | nil =>
    cases hsession
    exact ⟨found, h⟩
  | cons call calls ih =>
    rw [Machine.session?] at hsession
    split at hsession
    · cases hsession
    · next result m₁ hserve =>
      have hidle : m₁.Idle := (settles_of_serve? hm hserve).1
      obtain ⟨found₁, h₁⟩ := h.serve? hm hserve
      split at hsession
      · cases hsession
      · next replies' m₂ hrest =>
        cases hsession
        exact ih h₁ hidle hrest

end Machine

/-! ## stages -/

/-- what a machine does next -/
inductive Task (τ : Type) where
  | start (node : Nat)
  /-- the result goes to the innermost frame, or to whoever made the request -/
  | deliver (result : Option (Fragment τ))

/-- where a request stands: the frames that wait, the innermost first, what is done next, and the
ledger -/
structure Stage (τ : Type) where
  frames : List (Frame τ)
  task : Task τ
  ledger : Ledger τ

namespace Stage
variable {τ : Type} (g : Graph τ) (ignorables : List Pattern)

/-- what the next step reads -/
def reads? (s : Stage τ) : Option (Match × Reader) :=
  match s.task with
  | .start node => s.ledger.reads? g ignorables node
  | .deliver _ => none

/-- the stage after a move, where these frames wait -/
def after (frames : List (Frame τ)) : Move τ × Ledger τ → Stage τ
  | (.answer result, l) => ⟨frames, .deliver result, l⟩
  | (.wait frame node, l) => ⟨frame :: frames, .start node, l⟩

/-- the stage in which a request is taken up -/
def request (l : Ledger τ) : Call → Stage τ
  | .parser node => ⟨[], .start node, l⟩
  | .rule rule => after [] (l.enter g rule)

/-- one step: a parser is started, or the innermost frame is resumed -/
inductive Step : Stage τ → Stage τ → Prop
  | start (frames : List (Frame τ)) (node : Nat) (l : Ledger τ) :
      Step ⟨frames, .start node, l⟩ (after frames (l.start g ignorables node))
  | resume (frame : Frame τ) (frames : List (Frame τ)) (result : Option (Fragment τ))
      (l : Ledger τ) : Step ⟨frame :: frames, .deliver result, l⟩ (after frames (l.resume frame result))

@[simp] theorem after_ledger (frames : List (Frame τ)) (x : Move τ × Ledger τ) :
    (after frames x).ledger = x.2 := by
  obtain ⟨move, l⟩ := x
  cases move <;> rfl

end Stage

namespace Machine
variable {τ : Type} {g : Graph τ} {ignorables : List Pattern} {m m' : Machine τ} {s : Stage τ}

/-- the stacks of work and results hold the task and nothing else -/
def Faces (m : Machine τ) : Task τ → Prop
  | .start node => m.work = [node] ∧ m.results = []
  | .deliver result => m.work = [] ∧ m.results = [result]

/-- the machine is at that stage -/
structure At (m : Machine τ) (s : Stage τ) : Prop where
  frames : m.frames.items = s.frames
  task : m.Faces s.task
  ledger : m.ledger = s.ledger

/-- a move on a machine that has nothing else to do but resume its frames -/
theorem at_make (hwork : m.work = []) (hresults : m.results = []) (x : Move τ × Ledger τ) :
    (m.make x).At (.after m.frames.items x) := by
  obtain ⟨move, l⟩ := x
  cases move with
  | answer result =>
    refine ⟨rfl, ⟨hwork, ?_⟩, rfl⟩
    show result :: m.results = [result]
    rw [hresults]
  | wait frame node =>
    refine ⟨rfl, ⟨?_, hresults⟩, rfl⟩
    show node :: m.work = [node]
    rw [hwork]

theorem at_request (hm : m.Idle) (call : Call) : (m.request g call).At (.request g m.ledger call) := by
  have hframes : m.frames.items = [] := by rw [hm.frames]; rfl
  cases call with
  | parser node =>
    refine ⟨hframes, ⟨?_, hm.results⟩, rfl⟩
    show node :: m.work = [node]
    rw [hm.work]
  | rule rule =>
    have hmake := at_make hm.work hm.results (m.ledger.enter g rule)
    rw [hframes] at hmake
    show (m.enter g rule).At _
    rw [enter_eq]
    exact hmake

theorem frames_eq_push {frame : Frame τ} {frames : List (Frame τ)}
    (h : m.frames.items = frame :: frames) :
    ∃ rest : Pile (Frame τ), m.frames = rest.push frame ∧ rest.items = frames :=
  ⟨⟨frames, frames.length, rfl⟩, Pile.ext_items h, rfl⟩

theorem frames_eq_empty (h : m.frames.items = []) : m.frames = .empty := Pile.ext_items h

theorem At.reads?_eq (h : m.At s) : m.reads? g ignorables = s.reads? g ignorables := by
  obtain ⟨frames, task, l⟩ := s
  obtain ⟨-, hfaces, rfl⟩ := h
  cases task with
  | start node => rw [Machine.reads?, hfaces.1]; rfl
  | deliver result => rw [Machine.reads?, hfaces.1]; rfl

/-! What a step does is decided by the tops of the stacks. -/

theorem advance_start {node : Nat} (hwork : m.work = [node]) :
    m.observe.advance g ignorables = .running
      (({ m.observe with work := [] }.tally fun c => { c with steps := c.steps + 1 }).start g
        ignorables node) := by
  cases m with
  | mk reader work frames results memo counters events =>
    cases hwork
    rfl

theorem advance_deliver {frame : Frame τ} {frames : Pile (Frame τ)} {result : Option (Fragment τ)}
    (hwork : m.work = []) (hresults : m.results = [result]) (hframes : m.frames = frames.push frame) :
    m.observe.advance g ignorables = .running
      (({ m.observe with frames := frames, results := [] }.tally fun c =>
        { c with resumes := c.resumes + 1 }).resume frame result) := by
  cases m with
  | mk reader work frames' results memo counters events =>
    cases hwork
    cases hresults
    cases hframes
    cases frames
    rfl

theorem advance_end (hwork : m.work = []) (hframes : m.frames = .empty) :
    m.observe.advance g ignorables = .finished m.observe := by
  cases m with
  | mk reader work frames results memo counters events =>
    cases hwork
    cases hframes
    rfl

/-- a run with nothing to do is over at once -/
theorem Idle.finished (h : m.Idle) (hend : m.observe.advance g ignorables = .finished m') :
    m'.takeResult.2.Idle ∧ m'.takeResult.2.ledger = m.ledger := by
  rw [advance_end h.work h.frames] at hend
  cases hend
  have htake : m.observe.takeResult = (none, m.observe) := by
    have hresults : m.observe.results = [] := h.results
    rw [takeResult, hresults]
  rw [htake]
  exact ⟨⟨h.work, h.frames, h.results⟩, rfl⟩

/-- a machine without a request makes no step -/
theorem Idle.not_goes (h : m.Idle) : ¬ Goes g ignorables m m' := by
  intro hgoes
  rw [Goes, advance_end h.work h.frames] at hgoes
  cases hgoes

/-- **A machine goes from stage to stage.** -/
theorem At.goes (h : m.At s) (hgoes : Goes g ignorables m m') :
    ∃ s', s.Step g ignorables s' ∧ m'.At s' := by
  obtain ⟨frames, task, l⟩ := s
  obtain ⟨hframes, hfaces, rfl⟩ := h
  change m.frames.items = frames at hframes
  cases task with
  | start node =>
    obtain ⟨hwork, hresults⟩ := hfaces
    rw [Goes, advance_start hwork, start_eq] at hgoes
    cases hgoes
    refine ⟨_, .start frames node m.ledger, ?_⟩
    rw [← hframes]
    exact at_make (m := { m.observe with work := [] }.tally _) rfl hresults _
  | deliver result =>
    obtain ⟨hwork, hresults⟩ := hfaces
    cases frames with
    | nil =>
      rw [Goes, advance_end hwork (frames_eq_empty hframes)] at hgoes
      cases hgoes
    | cons frame frames =>
      obtain ⟨rest, hpush, hrest⟩ := frames_eq_push hframes
      rw [Goes, advance_deliver hwork hresults hpush, resume_eq] at hgoes
      cases hgoes
      refine ⟨_, .resume frame frames result m.ledger, ?_⟩
      rw [← hrest]
      exact at_make (m := { m.observe with frames := rest, results := [] }.tally _) hwork rfl _

/-- **A machine whose run is over has the result of the request, and nothing else.** -/
theorem At.finished (h : m.At s) (hend : m.observe.advance g ignorables = .finished m') :
    s.frames = [] ∧ ∃ result, s.task = .deliver result ∧ m'.takeResult.1 = result ∧
      m'.takeResult.2.Idle ∧ m'.takeResult.2.ledger = s.ledger := by
  obtain ⟨frames, task, l⟩ := s
  obtain ⟨hframes, hfaces, rfl⟩ := h
  change m.frames.items = frames at hframes
  cases task with
  | start node =>
    rw [advance_start hfaces.1] at hend
    cases hend
  | deliver result =>
    obtain ⟨hwork, hresults⟩ := hfaces
    cases frames with
    | nil =>
      have hempty := frames_eq_empty hframes
      rw [advance_end hwork hempty] at hend
      cases hend
      have htake : m.observe.takeResult = (result, { m.observe with results := [] }) := by
        have hlast : m.observe.results = [result] := hresults
        rw [takeResult, hlast]
      rw [htake]
      exact ⟨rfl, result, rfl, rfl, ⟨hwork, hempty, rfl⟩, rfl⟩
    | cons frame frames =>
      obtain ⟨rest, hpush, -⟩ := frames_eq_push hframes
      rw [advance_deliver hwork hresults hpush] at hend
      cases hend

end Machine

end Packrat
