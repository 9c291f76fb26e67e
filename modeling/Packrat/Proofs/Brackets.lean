import Packrat.Proofs.Lifetime
import Packrat.Proofs.Turns

/-!
# The events of a run are well bracketed

An attempt is told of twice, when it begins and when it ends, by different moves and with anything
told in between.  Answers from memory, attempts that are cut off and references to nothing open no
bracket and close none.

* `Bracketed`           events in which every end belongs to the innermost attempt that has begun;
* `Ledger.Opening`      a move that begins an attempt, or neither begins nor ends one;
* `Move.Tells`          what is told from a move to its result;
* `Settles.bracketed`   so a parser tells a bracketed story, by what each of its moves tells;
* `Stage.Step.news`     a step tells of no more than one beginning or end;
* `Machine.Attempted`   the result of an attempt, from the state in which it began;
* `Machine.Steps.ended`   each end that is told of is that of such an attempt;
* `Ledger.Enrolled`     with a memory, no attempt begins twice, and their number is counted;
* `Machine.Visits.enrolled`   this holds in every state of a session;
* `trace_bracketed`     all of it, for every request.
-/

namespace Packrat

/-! ## brackets -/

/-- the event is the beginning or the end of an attempt -/
def Event.isBracket : Event → Bool
  | .entered _ _ => true
  | .exited _ _ _ => true
  | _ => false

/-- events in the order in which they happen: between others, attempts at or after an offset, each
from its beginning to its end, and with bracketed events at or after its own offset in between -/
inductive Bracketed : Nat → List Event → Prop
  | nil (low : Nat) : Bracketed low []
  | aside {low : Nat} {e : Event} {events : List Event} : e.isBracket = false →
      Bracketed low events → Bracketed low (e :: events)
  | attempt {low rule offset : Nat} {matched : Bool} {inner events : List Event} : low ≤ offset →
      Bracketed offset inner → Bracketed low events →
      Bracketed low (.entered rule offset :: (inner ++ .exited rule offset matched :: events))

namespace Bracketed
variable {low low' : Nat} {events more : List Event}

theorem append (h : Bracketed low events) (h' : Bracketed low more) :
    Bracketed low (events ++ more) := by
  induction h with
  | nil low => exact h'
  | aside he _ ih => exact .aside he (ih h')
  | attempt hle hinner _ _ ih =>
    rw [List.cons_append, List.append_assoc]
    exact .attempt hle hinner (ih h')

theorem mono (h : Bracketed low events) (hle : low' ≤ low) : Bracketed low' events := by
  induction h with
  | nil low => exact .nil low'
  | aside he _ ih => exact .aside he (ih hle)
  | attempt hoffset hinner _ _ ih => exact .attempt (Nat.le_trans hle hoffset) hinner (ih hle)

theorem of_quiet (h : ∀ e ∈ events, e.isBracket = false) (low : Nat) : Bracketed low events := by
  induction events with
  | nil => exact .nil low
  | cons e events ih =>
    obtain ⟨he, hevents⟩ := List.forall_mem_cons.mp h
    exact .aside he (ih hevents)

end Bracketed

section
variable {τ : Type} {g : Graph τ} {ignorables : List Pattern}

/-! ## what moves tell -/

namespace Ledger
variable {l l₁ l₂ : Ledger τ} {told more : List Event}

/-- from the first ledger to the second these events are told, in that order -/
def Tells (l l' : Ledger τ) (told : List Event) : Prop := l'.events = told.reverse ++ l.events

theorem Tells.trans (h : l.Tells l₁ told) (h' : l₁.Tells l₂ more) : l.Tells l₂ (told ++ more) := by
  rw [Tells] at *
  rw [h', h, List.reverse_append, List.append_assoc]

/-- no bracket is opened or closed from the first ledger to the second -/
def TellsAside (l l' : Ledger τ) : Prop :=
  ∃ told, l.Tells l' told ∧ ∀ e ∈ told, e.isBracket = false

theorem TellsAside.refl (l : Ledger τ) : l.TellsAside l := ⟨[], rfl, nofun⟩

/-- a move that begins no attempt and ends none, and counts none -/
structure Quiet (l : Ledger τ) (x : Move τ × Ledger τ) : Prop where
  plain : x.1.Plain fun _ => True
  misses : x.2.tally.memoMisses = l.tally.memoMisses
  told : l.TellsAside x.2

/-- a move that begins an attempt of which nothing is known, or is quiet -/
inductive Opening (g : Graph τ) (l : Ledger τ) : Move τ × Ledger τ → Prop
  | attempt {rule root : Nat} : g.root? rule = some root → l.known? (l.key rule) = none →
      Opening g l (.wait (.rule rule l.reader.place) root, l.begun rule)
  | quiet {x : Move τ × Ledger τ} : Quiet l x → Opening g l x

theorem enter_opening (g : Graph τ) (l : Ledger τ) (rule : Nat) :
    Opening g l (l.enter g rule) := by
  cases hroot : g.root? rule with
  | none =>
    rw [enter_undefined hroot]
    exact .quiet ⟨trivial, rfl, .refl l⟩
  | some root =>
    cases hentry : l.known? (l.key rule) with
    | none =>
      rw [enter_absent hroot hentry]
      exact .attempt hroot hentry
    | some entry =>
      cases entry with
      | inProgress =>
        rw [enter_inProgress hroot hentry]
        exact .quiet ⟨trivial, rfl, [.cut rule l.reader.offset], rfl, by simp [Event.isBracket]⟩
      | done result stop =>
        rw [enter_done hroot hentry]
        exact .quiet ⟨trivial, rfl, .refl l⟩

/-- other events may be told, and no bracket is opened or closed -/
theorem quiet_congruence (l₀ : Ledger τ) :
    Congruence (fun l l' => l = l' ∧ l₀.TellsAside l) fun _ => True where
  same h := congrArg (·.reader.place) h.1
  here _ := trivial
  moveTo := by
    rintro l _ p ⟨rfl, h⟩ -
    exact ⟨rfl, h⟩
  readTo := by
    rintro l _ q ⟨rfl, h⟩ -
    exact ⟨rfl, h⟩
  count := by
    rintro l _ f - ⟨rfl, h⟩
    exact ⟨rfl, h⟩
  note := by
    rintro l _ e he ⟨rfl, told, htold, hquiet⟩
    have hnote : l.Tells (l.note e) [e] := rfl
    refine ⟨rfl, told ++ [e], htold.trans hnote, ?_⟩
    rw [List.forall_mem_append, List.forall_mem_singleton]
    refine ⟨hquiet, ?_⟩
    cases e with
    | unresolved name => rfl
    | stalled offset => rfl
    | entered rule offset => cases he
    | exited rule offset matched => cases he
    | cut rule offset => cases he

theorem start_opening (g : Graph τ) (ignorables : List Pattern) (l : Ledger τ) (node : Nat) :
    Opening g l (l.start g ignorables node) := by
  rcases l.start_aside g ignorables node with ⟨rule, hrule⟩ | haside
  · rw [hrule]
    exact l.enter_opening g rule
  · rcases start_alike g ignorables l.quiet_congruence ⟨rfl, .refl l⟩ node with
      ⟨rule, hrule⟩ | halike
    · rw [hrule l]
      exact l.enter_opening g rule
    · exact .quiet ⟨haside.plain, congrArg (·.2.1) haside.recalls, halike.ledger.2⟩

theorem resume_quiet (l : Ledger τ) {frame : Frame τ} (h : frame.attempt? = none)
    (part : Option (Fragment τ)) : Quiet l (l.resume frame part) := by
  have haside := l.resume_aside h part
  exact ⟨haside.plain, congrArg (·.2.1) haside.recalls,
    (resume_alike l.quiet_congruence ⟨rfl, .refl l⟩ (Frame.plain_of h) part).ledger.2⟩

end Ledger

/-- what is told from a move to its result: the end of the attempt is told last, if the parser that
waits is one -/
def Move.Tells (low : Nat) (result : Option (Fragment τ)) (told : List Event) : Move τ → Prop
  | .answer _ => told = []
  | .wait frame _ =>
    match frame.attempt? with
    | none => Bracketed low told
    | some key => ∃ inner, told = inner ++ [.exited key.rule key.offset result.isSome] ∧
        Bracketed key.offset inner

theorem Move.Tells.bracketed {low : Nat} {result : Option (Fragment τ)} {told : List Event}
    {move : Move τ} (h : move.Tells low result told) (hplain : move.Plain fun _ => True) :
    Bracketed low told := by
  cases move with
  | answer r =>
    cases h
    exact .nil low
  | wait frame node =>
    rw [Move.Tells, hplain.attempt] at h
    exact h

namespace Ledger
variable {l l' : Ledger τ} {result : Option (Fragment τ)}

theorem Quiet.tells {x : Move τ × Ledger τ} {low : Nat} (hx : Quiet l x)
    (h : ∃ told, x.2.Tells l' told ∧ x.1.Tells low result told) :
    ∃ told, l.Tells l' told ∧ Bracketed low told := by
  obtain ⟨told, htold, hmove⟩ := h
  obtain ⟨aside, haside, hquiet⟩ := hx.told
  have hfirst : Bracketed low aside := .of_quiet hquiet low
  exact ⟨_, haside.trans htold, hfirst.append (hmove.bracketed hx.plain)⟩

/-- a parser tells a bracketed story, if what follows its first move does -/
theorem Opening.tells {x : Move τ × Ledger τ} (hx : Opening g l x)
    (h : ∃ told, x.2.Tells l' told ∧ x.1.Tells l.reader.offset result told) :
    ∃ told, l.Tells l' told ∧ Bracketed l.reader.offset told := by
  cases hx with
  | @attempt rule root _ _ =>
    obtain ⟨_, htold, inner, rfl, hinner⟩ := h
    have hbegun : l.Tells (l.begun rule) [.entered rule l.reader.offset] := l.begun_events rule
    exact ⟨_, hbegun.trans htold, .attempt (Nat.le_refl _) hinner (.nil _)⟩
  | quiet hquiet => exact hquiet.tells h

end Ledger

/-- a move that lands lawfully comes to a result that does -/
theorem Settles.arrives {p outer : Place} {k : Nat} {x : Move τ × Ledger τ}
    {result : Option (Fragment τ)} {l' : Ledger τ} (h : Settles g ignorables k x result l')
    (hx : Ledger.Arrives p outer x) (houter : p ≤ outer) :
    Ledger.Arrives p outer (.answer result, l') := by
  induction h generalizing outer with
  | answer result l => exact hx
  | wait _ _ ih₁ ih₂ =>
    have hpart := ih₁ (hx.lawful.start _) hx.lawful.here
    exact ih₂ (hpart.lawful.resume houter hx.lands hpart.lands) houter

/-- **What is told from a move to its result is bracketed**, at or after the offset where the parser
was started. -/
theorem Settles.tells {p outer : Place} {k : Nat} {x : Move τ × Ledger τ}
    {result : Option (Fragment τ)} {l' : Ledger τ} (h : Settles g ignorables k x result l')
    (hx : Ledger.Arrives p outer x) (houter : p ≤ outer) :
    ∃ told, x.2.Tells l' told ∧ x.1.Tells outer.offset result told := by
  induction h generalizing outer with
  | answer result l => exact ⟨[], rfl, rfl⟩
  | @wait i j frame node l l₁ l₂ part result h₁ h₂ ih₁ ih₂ =>
    have hstart : Ledger.Arrives p l.reader.place (l.start g ignorables node) :=
      hx.lawful.start node
    have hpart := h₁.arrives hstart hx.lawful.here
    obtain ⟨inner, hinner, hbracketed⟩ :=
      (l.start_opening g ignorables node).tells (ih₁ hstart hx.lawful.here)
    have hspans : frame.Spans outer l.reader.place := hx.lands
    -- an attempt ends with its root, and any other parser may go on with more parts
    rcases frame.rule_or_plain with ⟨rule, start, rfl⟩ | hplain
    · obtain ⟨rfl, hplace⟩ := hspans
      obtain ⟨-, rfl, rfl⟩ := h₂.answer_inv
      have hclosed : l₁.Tells (l₁.closed rule start result)
          [.exited rule start.offset result.isSome] := rfl
      refine ⟨_, hinner.trans hclosed, inner, rfl, ?_⟩
      rw [← hplace]
      exact hbracketed
    · have hrest := ih₂ (hpart.lawful.resume houter hspans hpart.lands) houter
      obtain ⟨more, hmore, hbracketed'⟩ := (l₁.resume_quiet hplain.attempt part).tells hrest
      refine ⟨_, hinner.trans hmore, ?_⟩
      rw [Move.Tells, hplain.attempt]
      exact (hbracketed.mono (Place.offset_le hspans.le)).append hbracketed'

/-- **A parser tells a bracketed story.** -/
theorem Settles.bracketed {p : Place} {k : Nat} {l l' : Ledger τ} {call : Call}
    {result : Option (Fragment τ)}
    (h : Settles g ignorables k (l.begin g ignorables call) result l') (hl : l.Lawful p) :
    ∃ told, l.Tells l' told ∧ Bracketed l.reader.offset told := by
  cases call with
  | parser node => exact (l.start_opening g ignorables node).tells (h.tells (hl.start node) hl.here)
  | rule rule => exact (l.enter_opening g rule).tells (h.tells (hl.enter rule) hl.here)

/-! ## which moves begin an attempt, and which end one -/

namespace Ledger
variable {l : Ledger τ} {x : Move τ × Ledger τ} {told : List Event}

/-- what a move tells that ends no attempt: if one begins with it, that and nothing else -/
structure News (l : Ledger τ) (x : Move τ × Ledger τ) (told : List Event) : Prop where
  tells : l.Tells x.2 told
  opened : ∀ {rule start node}, x.1 = .wait (.rule rule start) node →
    told = [.entered rule start.offset] ∧ x.2.reader.place = start
  ended : ∀ {rule offset matched}, Event.exited rule offset matched ∉ told

theorem Quiet.news (h : Quiet l x) : ∃ told, l.News x told := by
  obtain ⟨told, htold, hquiet⟩ := h.told
  refine ⟨told, htold, fun {rule start node} hmove => ?_, fun hmem => nomatch hquiet _ hmem⟩
  have hplain := h.plain
  rw [hmove] at hplain
  cases hplain.attempt

theorem Opening.news (h : Opening g l x) : ∃ told, l.News x told := by
  cases h with
  | @attempt rule root _ _ =>
    refine ⟨[.entered rule l.reader.offset], l.begun_events rule, ?_, by simp⟩
    rintro _ _ _ ⟨⟩
    exact ⟨rfl, congrArg Reader.place (l.begun_reader rule)⟩
  | quiet hquiet => exact hquiet.news

end Ledger

namespace Stage
variable {s s' : Stage τ} {x : Move τ × Ledger τ} {l : Ledger τ} {told : List Event}

/-- the root of a rule is to be started for an attempt that began at that place -/
def Opens (s : Stage τ) (rule : Nat) (start : Place) : Prop :=
  ∃ rest node, s.frames = .rule rule start :: rest ∧ s.task = .start node

/-- the result of an attempt that began at that place is at hand -/
def Closes (s : Stage τ) (rule : Nat) (start : Place) (result : Option (Fragment τ)) : Prop :=
  ∃ rest, s.frames = .rule rule start :: rest ∧ s.task = .deliver result

/-- what a step tells: an attempt that begins or ends is told of by itself -/
structure News (s s' : Stage τ) (told : List Event) : Prop where
  tells : s.ledger.Tells s'.ledger told
  opened : ∀ {rule start}, s'.Opens rule start →
    told = [.entered rule start.offset] ∧ s'.ledger.reader.place = start
  ended : ∀ {rule offset matched}, Event.exited rule offset matched ∈ told →
    told = [.exited rule offset matched] ∧
      ∃ start result, s.Closes rule start result ∧ offset = start.offset ∧ matched = result.isSome

theorem opened_after {frames : List (Frame τ)} (h : l.News x told) {rule : Nat} {start : Place}
    (hopens : (after frames x).Opens rule start) :
    told = [.entered rule start.offset] ∧ (after frames x).ledger.reader.place = start := by
  obtain ⟨move, l'⟩ := x
  obtain ⟨rest, node, hframes, htask⟩ := hopens
  cases move with
  | answer result => cases htask
  | wait frame node' =>
    cases hframes
    exact h.opened rfl

theorem news_after {frames : List (Frame τ)} (h : s.ledger.News x told) :
    s.News (after frames x) told where
  tells := by
    rw [after_ledger]
    exact h.tells
  opened := opened_after h
  ended hmem := absurd hmem h.ended

/-- **A step tells of no more than one beginning or end**, and ends no attempt but the innermost,
with the result at hand. -/
theorem Step.news (h : s.Step g ignorables s') : ∃ told, s.News s' told := by
  cases h with
  | start frames node l =>
    obtain ⟨told, hnews⟩ := (l.start_opening g ignorables node).news
    exact ⟨told, news_after hnews⟩
  | resume frame frames result l =>
    rcases frame.rule_or_plain with ⟨rule, start, rfl⟩ | hplain
    · refine ⟨[.exited rule start.offset result.isSome], rfl, ?_, fun hmem => ?_⟩
      · rintro _ _ ⟨rest, node, -, ⟨⟩⟩
      · cases List.mem_singleton.mp hmem
        exact ⟨rfl, start, result, ⟨frames, rfl, rfl⟩, rfl, rfl⟩
    · obtain ⟨told, hnews⟩ := (l.resume_quiet hplain.attempt result).news
      exact ⟨told, news_after hnews⟩

theorem request_news (g : Graph τ) (l : Ledger τ) (call : Call) :
    ∃ told, l.Tells (request g l call).ledger told ∧
      (∀ {rule start}, (request g l call).Opens rule start →
        told = [.entered rule start.offset] ∧ (request g l call).ledger.reader.place = start) ∧
      ∀ {rule offset matched}, Event.exited rule offset matched ∉ told := by
  cases call with
  | parser node =>
    refine ⟨[], rfl, ?_, nofun⟩
    rintro rule start ⟨rest, node', ⟨⟩, -⟩
  | rule rule =>
    obtain ⟨told, hnews⟩ := (l.enter_opening g rule).news
    refine ⟨told, ?_, opened_after hnews, hnews.ended⟩
    rw [request, after_ledger]
    exact hnews.tells

end Stage

/-! ## the attempts that end -/

theorem Ledger.Tells.unique {l l' : Ledger τ} {told told' : List Event} (h : l.Tells l' told)
    (h' : l.Tells l' told') : told = told' :=
  List.reverse_inj.mp (List.append_cancel_right (h.symm.trans h'))

namespace Machine
variable {m now : Machine τ} {call : Call} {s : Stage τ}

/-- what a step of a machine tells -/
theorem At.news {now' : Machine τ} (hat : now.At s) (hgoes : Goes g ignorables now now') :
    ∃ s' told, now'.At s' ∧ now.ledger.Tells now'.ledger told ∧ s.News s' told := by
  obtain ⟨s', hstep, hat'⟩ := hat.goes hgoes
  obtain ⟨told, hnews⟩ := hstep.news
  have htold := hnews.tells
  rw [← hat.ledger, ← hat'.ledger] at htold
  exact ⟨s', told, hat', htold, hnews⟩

/-- a state in which the root of a rule is to be started for an attempt has told of its beginning
last -/
theorem Steps.opened (hidle : m.Idle) (hsteps : Steps g ignorables (m.request g call) now) :
    ∃ s told, now.At s ∧ m.ledger.Tells now.ledger told ∧ ∀ rule start, s.Opens rule start →
      (∃ before, told = before ++ [.entered rule start.offset]) ∧ now.reader.place = start := by
  induction hsteps with
  | refl =>
    have hat := at_request (g := g) hidle call
    obtain ⟨told, htold, hopened, -⟩ := Stage.request_news g m.ledger call
    rw [← hat.ledger] at htold hopened
    refine ⟨_, told, hat, htold, fun rule start hopens => ?_⟩
    obtain ⟨rfl, hplace⟩ := hopened hopens
    exact ⟨⟨[], rfl⟩, hplace⟩
  | tail _ hgoes ih =>
    obtain ⟨s, told, hat, htold, -⟩ := ih
    obtain ⟨s', more, hat', hmore, hnews⟩ := hat.news hgoes
    refine ⟨s', told ++ more, hat', htold.trans hmore, fun rule start hopens => ?_⟩
    obtain ⟨rfl, hplace⟩ := hnews.opened hopens
    exact ⟨⟨told, rfl⟩, (congrArg (·.reader.place) hat'.ledger).trans hplace⟩

variable (g ignorables) in
/-- the result of an attempt that began in the state `since` is at hand in the state `now`: the root
of the rule was to be started then, it has come to that result, and these events were told on the
way -/
structure Attempted (since now : Machine τ) (rule offset : Nat) (result : Option (Fragment τ))
    (inner : List Event) : Prop where
  here : since.reader.offset = offset
  root : ∃ root k, g.root? rule = some root ∧ since.work = [root] ∧
    Settles g ignorables k (since.ledger.start g ignorables root) result now.ledger
  returns : Returns g ignorables since now
  results : now.results = [result]
  tells : since.ledger.Tells now.ledger inner
  bracketed : Bracketed offset inner

variable (g ignorables) in
/-- the end of an attempt is told of in a request, after what was told earlier: the attempt began in
a state of the request, as was told then, and its result is the one that is told of -/
def Ended (m : Machine τ) (call : Call) (earlier : List Event) (rule offset : Nat)
    (matched : Bool) : Prop :=
  ∃ since now result before inner, Steps g ignorables (m.request g call) since ∧
    m.ledger.Tells since.ledger (before ++ [.entered rule offset]) ∧
    Attempted g ignorables since now rule offset result inner ∧
    earlier = before ++ .entered rule offset :: inner ∧ matched = result.isSome

/-- an attempt whose result is at hand has begun in a state of the request -/
theorem Serving.ended {reader : Reader} {memoize : Bool} {found : List Match}
    {told : List Event} {rule : Nat} {start : Place} {result : Option (Fragment τ)}
    (hvisits : Visits g ignorables (fresh reader memoize) found m) (hidle : m.Idle)
    (h : Serving g ignorables (m.request g call) now (m.ledger.begin g ignorables call) s)
    (hat : now.At s) (htold : m.ledger.Tells now.ledger told)
    (hcloses : s.Closes rule start result) :
    Ended g ignorables m call told rule start.offset result.isSome := by
  obtain ⟨rest, hframes, htask⟩ := hcloses
  have hfaces := hat.task
  rw [htask] at hfaces
  obtain ⟨pile, hpush, -⟩ := frames_eq_push (hat.frames.trans hframes)
  obtain ⟨since, node, result', k, hresults, hsince, hwork, hstacks, hroot, hreturns, hsettles⟩ :=
    h.resumed hat hfaces.1 hpush
  cases hfaces.2.symm.trans hresults
  obtain ⟨s₀, told₀, hat₀, htold₀, hopened⟩ := hsince.opened hidle
  have hopens : s₀.Opens rule start := by
    refine ⟨rest, node, ?_, ?_⟩
    · rw [← hat₀.frames, hstacks, hat.frames, hframes]
    · obtain ⟨frames, task, l⟩ := s₀
      have htask₀ := hat₀.task
      cases task with
      | start node' =>
        cases hwork.symm.trans htask₀.1
        rfl
      | deliver result' => cases hwork.symm.trans htask₀.1
  obtain ⟨⟨before, rfl⟩, hplace⟩ := hopened rule start hopens
  have hhere : since.reader.offset = start.offset := congrArg Place.offset hplace
  obtain ⟨found', hvisits'⟩ := (hvisits.request call hidle).steps hsince
  have hpart : Settles g ignorables k (since.ledger.begin g ignorables (.parser node)) result
      now.ledger := hsettles
  obtain ⟨inner, hinner, hbracketed⟩ := hpart.bracketed hvisits'.ledger_lawful
  change Bracketed since.reader.offset inner at hbracketed
  rw [hhere] at hbracketed
  refine ⟨since, now, result, before, inner, hsince, htold₀,
    ⟨hhere, ⟨node, k, hroot, hwork, hsettles⟩, hreturns, hfaces.2, hinner, hbracketed⟩, ?_, rfl⟩
  rw [htold.unique (htold₀.trans hinner), List.append_assoc]
  rfl

/-- **Each end that is told of in a request is that of an attempt with that result.** -/
theorem Steps.ended {reader : Reader} {memoize : Bool} {found : List Match}
    (hvisits : Visits g ignorables (fresh reader memoize) found m) (hidle : m.Idle)
    (hsteps : Steps g ignorables (m.request g call) now) :
    ∃ told, m.ledger.Tells now.ledger told ∧ ∀ earlier rule offset matched later,
      told = earlier ++ .exited rule offset matched :: later →
        Ended g ignorables m call earlier rule offset matched := by
  induction hsteps with
  | refl =>
    obtain ⟨told, htold, -, hended⟩ := Stage.request_news g m.ledger call
    rw [← (at_request hidle call).ledger] at htold
    refine ⟨told, htold, fun earlier rule offset matched later hsplit => ?_⟩
    rw [hsplit] at hended
    exact absurd (List.mem_append_right _ List.mem_cons_self) hended
  | tail hreached hgoes ih =>
    obtain ⟨told, htold, hearlier⟩ := ih
    obtain ⟨s, hat, hserving⟩ :=
      Steps.serving hreached (at_request hidle call) (serving_request call)
    obtain ⟨s', more, -, hmore, hnews⟩ := hat.news hgoes
    refine ⟨told ++ more, htold.trans hmore, fun earlier rule offset matched later hsplit => ?_⟩
    have hnow : Event.exited rule offset matched ∈ more →
        Ended g ignorables m call told rule offset matched := by
      intro hmem
      obtain ⟨-, start, result, hcloses, rfl, rfl⟩ := hnews.ended hmem
      exact hserving.ended hvisits hidle hat htold hcloses
    -- the end was told of before this step, or it is all that the step tells
    rcases List.append_eq_append_iff.mp hsplit with ⟨between, rfl, rfl⟩ | ⟨between, rfl, hrest⟩
    · have hmem : Event.exited rule offset matched ∈
          between ++ .exited rule offset matched :: later :=
        List.mem_append_right _ List.mem_cons_self
      cases between with
      | nil =>
        rw [List.append_nil]
        exact hnow hmem
      | cons e between =>
        have hsingle := (hnews.ended hmem).1
        simp at hsingle
    · cases between with
      | nil =>
        rw [List.nil_append] at hrest
        rw [List.append_nil, ← hrest] at hnow
        exact hnow List.mem_cons_self
      | cons e between =>
        cases (List.cons.inj hrest).1
        exact hearlier earlier rule offset matched between rfl

end Machine

/-! ## attempts that are remembered -/

/-- the attempts that have begun, the latest first -/
def started : List Event → List Memo.Key
  | [] => []
  | .entered rule offset :: events => ⟨offset, rule⟩ :: started events
  | _ :: events => started events

theorem started_append {told : List Event} (h : ∀ e ∈ told, e.isBracket = false)
    (events : List Event) : started (told ++ events) = started events := by
  induction told with
  | nil => rfl
  | cons e told ih =>
    obtain ⟨he, htold⟩ := List.forall_mem_cons.mp h
    cases e with
    | entered rule offset => cases he
    | exited rule offset matched => cases he
    | cut rule offset => exact ih htold
    | unresolved name => exact ih htold
    | stalled offset => exact ih htold

theorem Memo.Ages.ne_none {entry entry' : Option (Memo.Entry τ)} (h : Memo.Ages entry entry')
    (hknown : entry ≠ none) : entry' ≠ none := by
  cases h with
  | stays entry => exact hknown
  | begins => exact Option.some_ne_none _
  | ends result stop => exact Option.some_ne_none _

namespace Ledger
variable {l l' : Ledger τ} {x : Move τ × Ledger τ}

/-- nothing begins and nothing is counted, or an attempt begins of which nothing was known, and is
counted -/
inductive Enrols (l l' : Ledger τ) : Prop
  | same : started l'.events = started l.events →
      l'.tally.memoMisses = l.tally.memoMisses → Enrols l l'
  | begins (key : Memo.Key) : l.known? key = none → l'.known? key ≠ none →
      started l'.events = key :: started l.events →
      l'.tally.memoMisses = l.tally.memoMisses + 1 → Enrols l l'

theorem Quiet.enrols (h : Quiet l x) : l.Enrols x.2 := by
  obtain ⟨told, htold, hquiet⟩ := h.told
  refine .same ?_ h.misses
  rw [htold]
  exact started_append (fun e he => hquiet e (List.mem_reverse.mp he)) l.events

theorem Opening.enrols (hx : Opening g l x) (h : l.memo.isSome = true) : l.Enrols x.2 := by
  cases hx with
  | @attempt rule root _ habsent =>
    have hevents : started (l.begun rule).events = l.key rule :: started l.events := by
      rw [begun_events]
      rfl
    have hmisses : (l.begun rule).tally.memoMisses = l.tally.memoMisses + 1 := by
      obtain ⟨memo, hmemo⟩ := Option.isSome_iff_exists.mp h
      rw [begun, hmemo]
      rfl
    refine .begins (l.key rule) habsent ?_ hevents hmisses
    rw [known?_begun_self h]
    exact Option.some_ne_none _
  | quiet hquiet => exact hquiet.enrols

theorem resume_enrols (l : Ledger τ) (frame : Frame τ) (part : Option (Fragment τ)) :
    l.Enrols (l.resume frame part).2 := by
  rcases frame.rule_or_plain with ⟨rule, start, rfl⟩ | hplain
  · exact .same rfl rfl
  · exact (l.resume_quiet hplain.attempt part).enrols

/-- no attempt has begun twice, each that has begun is known, and they have been counted -/
structure Enrolled (l : Ledger τ) : Prop where
  once : (started l.events).Nodup
  known : ∀ {key}, key ∈ started l.events → l.known? key ≠ none
  counted : (started l.events).length = l.tally.memoMisses

theorem Enrolled.next (h : l.Enrolled) (henrols : l.Enrols l')
    (hages : ∀ key, Memo.Ages (l.known? key) (l'.known? key)) : l'.Enrolled := by
  cases henrols with
  | same hstarted hmisses =>
    refine ⟨hstarted ▸ h.once, fun {key} hkey => ?_, ?_⟩
    · exact (hages key).ne_none (h.known (hstarted ▸ hkey))
    · rw [hstarted, hmisses]
      exact h.counted
  | begins key hnew hknown hstarted hmisses =>
    refine ⟨?_, fun {other} hother => ?_, ?_⟩
    · rw [hstarted]
      exact List.nodup_cons.mpr ⟨fun hmem => h.known hmem hnew, h.once⟩
    · rw [hstarted] at hother
      rcases List.mem_cons.mp hother with rfl | hother
      · exact hknown
      · exact (hages other).ne_none (h.known hother)
    · rw [hstarted, hmisses, List.length_cons, h.counted]

end Ledger

theorem Stage.Step.enrols {s s' : Stage τ} (h : s.Step g ignorables s')
    (hmemo : s.ledger.memo.isSome = true) : s.ledger.Enrols s'.ledger := by
  cases h with
  | start frames node l =>
    rw [after_ledger]
    exact (l.start_opening g ignorables node).enrols hmemo
  | resume frame frames result l =>
    rw [after_ledger]
    exact l.resume_enrols frame result

namespace Machine
variable {m m' : Machine τ} {reader : Reader} {found : List Match}

theorem Next.enrols (hnext : Next g ignorables m m')
    (hvisits : Visits g ignorables (fresh reader true) found m) : m.ledger.Enrols m'.ledger := by
  have hmemo := hvisits.books.isSome
  cases hnext with
  | request call hidle =>
    rw [(at_request hidle call).ledger]
    cases call with
    | parser node => exact .same rfl rfl
    | rule rule =>
      rw [Stage.request, Stage.after_ledger]
      exact (m.ledger.enter_opening g rule).enrols hmemo
  | step hgoes =>
    obtain ⟨s, hat⟩ := hvisits.at_of_goes hgoes
    obtain ⟨s', hstep, hat'⟩ := hat.goes hgoes
    rw [hat.ledger] at hmemo
    rw [hat.ledger, hat'.ledger]
    exact hstep.enrols hmemo
  | finish hend =>
    obtain ⟨-, -, hledger⟩ := hvisits.finished hend
    rw [hledger]
    exact .same rfl rfl

theorem Next.enrolled (hnext : Next g ignorables m m')
    (hvisits : Visits g ignorables (fresh reader true) found m) (h : m.ledger.Enrolled) :
    m'.ledger.Enrolled :=
  h.next (hnext.enrols hvisits) (hnext.grows hvisits hvisits.books).ages

/-- **No attempt begins twice in a session with a memory**, and their number is counted. -/
theorem Visits.enrolled (h : Visits g ignorables (fresh reader true) found m) :
    m.ledger.Enrolled := by
  induction h with
  | first => exact ⟨List.nodup_nil, nofun, rfl⟩
  | request call hvisits hidle ih => exact (Next.request call hidle).enrolled hvisits ih
  | step hvisits hgoes ih => exact (Next.step hgoes).enrolled hvisits ih
  | finish hvisits hend ih => exact (Next.finish hend).enrolled hvisits ih

end Machine

open Machine in
/-- **The events are a well-bracketed account of the run.**  Those told in answer to a request, with
or without a memory and after any others, hold attempts from their beginning to their end, one
inside the other or one after the other, and none before the place of the one around it.  Where the
end of an attempt is told, it is that of the last one that began and has not ended; it began in a
state of the request from which the root of its rule came to a result, and a match is told exactly
if that result is one.  With a memory, no attempt begins twice in a whole session, and as many have
begun as are counted. -/
theorem trace_bracketed (g : Graph τ) (ignorables : List Pattern) (reader : Reader) :
    (∀ memoize limit calls replies m call limit' result m',
      (fresh reader memoize).session? g ignorables limit calls = some (replies, m) →
      m.serve? g ignorables limit' call = some (result, m') →
        ∃ told, m'.events.reverse = m.events.reverse ++ told ∧ Bracketed m.reader.offset told ∧
          ∀ earlier rule offset matched later,
            told = earlier ++ .exited rule offset matched :: later →
              Ended g ignorables m call earlier rule offset matched) ∧
    ∀ found m, Visits g ignorables (fresh reader true) found m →
      (started m.events).Nodup ∧ (started m.events).length = m.totals.memoMisses := by
  refine ⟨?_, fun found m hvisits => ⟨hvisits.enrolled.once, hvisits.enrolled.counted⟩⟩
  intro memoize limit calls replies m call limit' result m' hsession hserve
  have hidle : m.Idle := (serves_of_session? (fresh_idle reader memoize) hsession).1
  obtain ⟨found, hvisits⟩ := Visits.first.session? (fresh_idle reader memoize) hsession
  obtain ⟨-, k, hsettles⟩ := settles_of_serve? hidle hserve
  obtain ⟨told, htold, hbracketed⟩ := hsettles.bracketed hvisits.ledger_lawful
  obtain ⟨last, finished, hsteps, hend, htake⟩ := steps_of_serve? hserve
  obtain ⟨told', htold', hended⟩ := hsteps.ended hvisits hidle
  obtain ⟨found', hvisits'⟩ := (hvisits.request call hidle).steps hsteps
  have hledger : m'.ledger = last.ledger := by
    have hfinished := (hvisits'.finished hend).2.2
    rw [htake] at hfinished
    exact hfinished
  rw [← hledger] at htold'
  cases htold.unique htold'
  refine ⟨told, ?_, hbracketed, hended⟩
  rw [show m'.events = told.reverse ++ m.events from htold, List.reverse_append,
    List.reverse_reverse]

end

namespace Nest

/-- `nest ::= "<" nest ">" | "<" nest | "x"` -/
def grammar : Grammar Unit :=
  Grammar.empty.declare
    (({ name := "nest" } : Rule.Draft Unit).hide "<" |>.call "nest" |>.hide ">" |>.or |>.hide "<"
      |>.call "nest" |>.or |>.hide "x")

/-- a machine with a memory at the beginning of the text `<<x` -/
def machine : Machine Unit := .fresh (Reader.first "<<x".toList) true

/-- what is inside is remembered when it is asked for again, so three attempts are told of and no
more, one inside the other -/
theorem trace_bracketed_of_nest :
    ∃ result m', machine.serve? grammar.compile [] 100 (.rule 0) = some (result, m') ∧
      m'.counters.memoHits = 2 ∧
      m'.events.reverse = [.entered 0 0, .entered 0 1, .entered 0 2, .exited 0 2 true,
        .exited 0 1 true, .exited 0 0 true] ∧
      Bracketed 0 m'.events.reverse ∧
      Machine.Ended grammar.compile [] machine (.rule 0)
        [.entered 0 0, .entered 0 1, .entered 0 2, .exited 0 2 true] 0 1 true ∧
      (started m'.events).Nodup ∧ m'.totals.memoMisses = 3 := by
  have hview : (machine.serve? grammar.compile [] 100 (.rule 0)).map (fun x =>
      (x.2.counters.memoHits, x.2.events.reverse)) =
        some (2, [.entered 0 0, .entered 0 1, .entered 0 2, .exited 0 2 true, .exited 0 1 true,
          .exited 0 0 true]) := by
    decide +kernel
  obtain ⟨⟨result, m'⟩, hm', hview⟩ := Option.map_eq_some_iff.mp hview
  obtain ⟨hhits, hevents⟩ := Prod.mk.inj hview
  have h := trace_bracketed grammar.compile [] (Reader.first "<<x".toList)
  have hidle : machine.Idle := Machine.fresh_idle _ _
  obtain ⟨told, htold, hbracketed, hended⟩ := h.1 true 100 [] [] machine _ _ _ _ rfl hm'
  have hall : m'.events.reverse = told := htold
  obtain ⟨found, hvisits⟩ := Machine.Visits.first.serve? hidle hm'
  obtain ⟨honce, hcount⟩ := h.2 found m' hvisits
  refine ⟨result, m', hm', hhits, hevents, hall ▸ hbracketed,
    hended _ 0 1 true _ (hall.symm.trans hevents), honce, ?_⟩
  rw [← hcount, ← m'.events.reverse_reverse, hevents]
  rfl

end Nest

end Packrat
