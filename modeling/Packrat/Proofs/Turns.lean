import Packrat.Proofs.Standing

/-!
# The stacks of work and results take turns

A step that found no result would count it as a failure, and nobody would notice.  It never happens:
every move leaves one parser to start or one result to hand over, and the result that a frame is
resumed with is that of the part for which it was suspended.

* `Frame.Expects`       the part that a frame waits for, by the graph;
* `Move.Comes`          what a later move comes to, an earlier one does;
* `Machine.Suspended`   a frame has waited for its part since a certain state;
* `Machine.Pending`     the frames of a request wait one for the other;
* `Machine.Serving`     the next task is a part of the innermost, or the result of its part;
* `Machine.Serving.goes`   every step keeps this;
* `Machine.Narrow`      neither stack has ever held two items;
* `stacks_take_turns`   all of it, in every state of a session.
-/

namespace Packrat

section
variable {τ : Type} {g : Graph τ} {ignorables : List Pattern}

/-! ## the part that a frame waits for -/

/-- the part with that number is the one that the frame waits for: that before the others to come in
a sequence or an alternative, the body of a repetition or an option, the root of a rule -/
def Frame.Expects (g : Graph τ) (node : Nat) : Frame τ → Prop
  | .sequence todo shape _ _ =>
    ∃ (whole : Nat) (done : List Nat),
      g.nodes[whole]? = some (.sequence (done ++ node :: todo) shape)
  | .alternative todo shape _ =>
    ∃ (whole : Nat) (tried : List Nat),
      g.nodes[whole]? = some (.alternative (tried ++ node :: todo) shape)
  | .repetition inner bound shape _ _ _ _ =>
    node = inner ∧ ∃ whole : Nat, g.nodes[whole]? = some (.repetition inner bound shape)
  | .optional => ∃ whole : Nat, g.nodes[whole]? = some (.optional node)
  | .rule number _ => g.root? number = some node

/-- a parser that waits, waits for a part of its own -/
def Move.Expects (g : Graph τ) : Move τ → Prop
  | .answer _ => True
  | .wait frame node => frame.Expects g node

namespace Ledger

theorem enter_expects (l : Ledger τ) (rule : Nat) : (l.enter g rule).1.Expects g := by
  cases hroot : g.root? rule with
  | none =>
    rw [enter_undefined hroot]
    trivial
  | some root =>
    cases hentry : l.known? (l.key rule) with
    | none =>
      rw [enter_absent hroot hentry]
      exact hroot
    | some entry =>
      cases entry with
      | inProgress =>
        rw [enter_inProgress hroot hentry]
        trivial
      | done result stop =>
        rw [enter_done hroot hentry]
        trivial

theorem start_expects (l : Ledger τ) (node : Nat) : (l.start g ignorables node).1.Expects g := by
  rw [start]
  cases hnode : g.nodes[node]? with
  | none => trivial
  | some found =>
    cases found with
    | sequence parts shape =>
      cases parts with
      | nil => trivial
      | cons part parts => exact ⟨node, [], hnode⟩
    | alternative choices shape =>
      cases choices with
      | nil => trivial
      | cons choice choices => exact ⟨node, [], hnode⟩
    | repetition inner bound shape => exact ⟨rfl, node, hnode⟩
    | optional inner => exact ⟨node, hnode⟩
    | leaf source pattern role =>
      cases pattern with
      | none => trivial
      | some pattern =>
        show (l.readLeaf ignorables pattern role).1.Expects g
        rw [readLeaf]
        cases l.reader.look? ignorables pattern <;> trivial
    | reference name rule =>
      cases rule with
      | none => trivial
      | some rule => exact l.enter_expects rule

theorem endRepetition_expects (l : Ledger τ) (bound : Bound) (shape : Shape τ) (count : Nat)
    (start : Place) (collected : List (Tree τ)) :
    (l.endRepetition bound shape count start collected).1.Expects g := by
  rw [endRepetition]
  split <;> trivial

/-- a frame that waits again waits for the part after the one it has the result of -/
theorem resume_expects (l : Ledger τ) {frame : Frame τ} {node : Nat} (h : frame.Expects g node)
    (part : Option (Fragment τ)) : (l.resume frame part).1.Expects g := by
  cases frame with
  | sequence todo shape start collected =>
    obtain ⟨whole, done, hwhole⟩ := h
    cases todo with
    | nil => cases part <;> trivial
    | cons next todo =>
      cases part with
      | none => trivial
      | some found => exact ⟨whole, done ++ [node], by rw [hwhole, List.append_cons]⟩
  | alternative todo shape start =>
    obtain ⟨whole, tried, hwhole⟩ := h
    cases todo with
    | nil => cases part <;> trivial
    | cons next todo =>
      cases part with
      | none => exact ⟨whole, tried ++ [node], by rw [hwhole, List.append_cons]⟩
      | some found => trivial
  | repetition inner bound shape count start before collected =>
    obtain ⟨rfl, hwhole⟩ := h
    cases part with
    | none => exact l.endRepetition_expects bound shape count start collected
    | some found =>
      by_cases hmoved : before.offset < l.reader.offset
      · rw [resume_moved hmoved]
        exact ⟨rfl, hwhole⟩
      · rw [resume_still (Nat.not_lt.mp hmoved)]
        exact (l.stalled before).endRepetition_expects bound shape (count + 1) start _
  | optional => cases part <;> trivial
  | rule rule start => trivial

end Ledger

variable (g ignorables) in
/-- whatever the second move comes to, the first does -/
def Move.Comes (x y : Move τ × Ledger τ) : Prop :=
  ∀ k result l, Settles g ignorables k y result l → ∃ k', Settles g ignorables k' x result l

theorem Move.Comes.refl (x : Move τ × Ledger τ) : Move.Comes g ignorables x x :=
  fun k _ _ h => ⟨k, h⟩

/-- a parser that waits comes to what it does with the result of its part -/
theorem Move.Comes.resume {x : Move τ × Ledger τ} {frame : Frame τ} {node k : Nat}
    {l l₁ : Ledger τ} {part : Option (Fragment τ)}
    (h : Move.Comes g ignorables x (.wait frame node, l))
    (hpart : Settles g ignorables k (l.start g ignorables node) part l₁) :
    Move.Comes g ignorables x (l₁.resume frame part) :=
  fun _ result l₂ hrest => h _ result l₂ (.wait hpart hrest)

/-! ## what is under way -/

namespace Machine
variable {first now now' : Machine τ} {origin x : Move τ × Ledger τ} {frames : List (Frame τ)}
  {s : Stage τ}

theorem Above.tail {n : Nat} {m m₁ m₂ : Machine τ} (h : Above g ignorables n m m₁)
    (hheight : n < m₁.frames.height) (hgoes : Goes g ignorables m₁ m₂) :
    Above g ignorables n m m₂ := by
  induction h with
  | one hfirst => exact .more hfirst hheight (.one hgoes)
  | more hfirst hbetween _ ih => exact .more hfirst hbetween (ih hheight hgoes)

variable (g ignorables) in
/-- the frame was left to wait over these frames in the state `since`, where the part with that
number was to be started, and it has not been resumed up to the state `now` -/
structure Suspended (first now : Machine τ) (frame : Frame τ) (frames : List (Frame τ))
    (node : Nat) (since : Machine τ) : Prop where
  reached : Steps g ignorables first since
  stage : since.At ⟨frame :: frames, .start node, since.ledger⟩
  expects : frame.Expects g node
  waited : Above g ignorables since.frames.height since now

variable (g ignorables) in
/-- the frames of a request that began with the move `origin` wait one for the other; the innermost,
or else the request itself, waits for a part that began with the last move -/
inductive Pending (first now : Machine τ) (origin : Move τ × Ledger τ) :
    List (Frame τ) → Move τ × Ledger τ → Prop
  | request : Pending first now origin [] origin
  | frame {frame : Frame τ} {frames : List (Frame τ)} {node : Nat} {since : Machine τ}
      {x : Move τ × Ledger τ} : Pending first now origin frames x →
      Suspended g ignorables first now frame frames node since →
      Move.Comes g ignorables x (.wait frame node, since.ledger) →
      Pending first now origin (frame :: frames) (since.ledger.start g ignorables node)

variable (g ignorables) in
/-- what is done next is done for the innermost frame, or else for the request itself -/
inductive Serving (first now : Machine τ) (origin : Move τ × Ledger τ) : Stage τ → Prop
  | request {node : Nat} {l : Ledger τ} : origin = l.start g ignorables node →
      Serving first now origin ⟨[], .start node, l⟩
  | start {frame : Frame τ} {frames : List (Frame τ)} {node : Nat} {l : Ledger τ}
      {x : Move τ × Ledger τ} : Pending g ignorables first now origin frames x →
      Move.Comes g ignorables x (.wait frame node, l) → frame.Expects g node →
      Serving first now origin ⟨frame :: frames, .start node, l⟩
  | deliver {frames : List (Frame τ)} {result : Option (Fragment τ)} {l : Ledger τ}
      {x : Move τ × Ledger τ} {k : Nat} : Pending g ignorables first now origin frames x →
      Settles g ignorables k x result l → Serving first now origin ⟨frames, .deliver result, l⟩

/-- a step that resumes none of the frames leaves them waiting -/
theorem Pending.goes (h : Pending g ignorables first now origin frames x)
    (hheight : frames.length < now.frames.height) (hgoes : Goes g ignorables now now') :
    Pending g ignorables first now' origin frames x := by
  induction h with
  | request => exact .request
  | @frame frame frames node since x _ hsuspended hcomes ih =>
    rw [List.length_cons] at hheight
    have hsince : since.frames.height < now.frames.height := by
      rw [height_eq hsuspended.stage, List.length_cons]
      exact hheight
    exact .frame (ih (by omega))
      { hsuspended with waited := hsuspended.waited.tail hsince hgoes } hcomes

theorem Serving.after {y : Move τ × Ledger τ} (h : Pending g ignorables first now origin frames x)
    (hcomes : Move.Comes g ignorables x y) (hexpects : y.1.Expects g) :
    Serving g ignorables first now origin (.after frames y) := by
  obtain ⟨move, l⟩ := y
  cases move with
  | answer result =>
    obtain ⟨k, hsettles⟩ := hcomes 0 result l (.answer result l)
    exact .deliver h hsettles
  | wait frame node => exact .start h hcomes hexpects

theorem serving_request {m : Machine τ} (call : Call) :
    Serving g ignorables first now (m.ledger.begin g ignorables call)
      (.request g m.ledger call) := by
  cases call with
  | parser node => exact .request rfl
  | rule rule => exact .after .request (.refl _) (m.ledger.enter_expects rule)

/-- **A step goes on for whoever waits.**  A part that is started is the one its frame was suspended
for, and the frame that takes a result is the one that was suspended for it. -/
theorem Serving.goes (h : Serving g ignorables first now origin s) (hat : now.At s)
    (hreached : Steps g ignorables first now) (hgoes : Goes g ignorables now now') :
    ∃ s', now'.At s' ∧ Serving g ignorables first now' origin s' := by
  obtain ⟨s', hstep, hat'⟩ := hat.goes hgoes
  refine ⟨s', hat', ?_⟩
  have hheight : now.frames.height = s.frames.length := height_eq hat
  cases hstep with
  | start frames node l =>
    cases h with
    | request horigin => exact .after .request (horigin ▸ .refl _) (l.start_expects node)
    | @start frame frames _ _ x hpending hcomes hexpects =>
      have hledger : now.ledger = l := hat.ledger
      subst hledger
      have hframes := hpending.goes (by rw [hheight]; exact Nat.lt_succ_self _) hgoes
      exact .after (.frame hframes ⟨hreached, hat, hexpects, .one hgoes⟩ hcomes) (.refl _)
        (now.ledger.start_expects node)
  | resume frame frames result l =>
    cases h with
    | deliver hpending hsettles =>
      cases hpending with
      | frame hframes hsuspended hcomes =>
        exact .after (hframes.goes (by rw [hheight]; exact Nat.lt_succ_self _) hgoes)
          (hcomes.resume hsettles) (l.resume_expects hsuspended.expects result)

theorem Steps.serving (hsteps : Steps g ignorables first now) (hat : first.At s)
    (hs : Serving g ignorables first first origin s) :
    ∃ s', now.At s' ∧ Serving g ignorables first now origin s' := by
  induction hsteps with
  | refl => exact ⟨s, hat, hs⟩
  | tail hreached hgoes ih =>
    obtain ⟨s₁, hat₁, hs₁⟩ := ih
    exact hs₁.goes hat₁ hreached hgoes

/-! ## the largest heights -/

/-- neither of the two stacks has ever held two items -/
structure Narrow (m : Machine τ) : Prop where
  work : m.counters.maxWork ≤ 1
  results : m.counters.maxResults ≤ 1

variable {m m' : Machine τ}

theorem Narrow.make (h : m.Narrow) (y : Move τ × Ledger τ) : (m.make y).Narrow := by
  obtain ⟨move, l⟩ := y
  cases move with
  | answer result => exact ⟨h.work, h.results⟩
  | wait frame node => exact ⟨h.work, h.results⟩

theorem Narrow.request (h : m.Narrow) (call : Call) : (m.request g call).Narrow := by
  cases call with
  | parser node => exact ⟨h.work, h.results⟩
  | rule rule =>
    show (m.enter g rule).Narrow
    rw [enter_eq]
    exact h.make _

theorem Narrow.observe (h : m.Narrow) (hwork : m.work.length ≤ 1)
    (hresults : m.results.length ≤ 1) : m.observe.Narrow :=
  ⟨Nat.max_le.mpr ⟨h.work, hwork⟩, Nat.max_le.mpr ⟨h.results, hresults⟩⟩

/-- one of the stacks holds one item, and the other none -/
theorem At.one_item (h : m.At s) :
    (m.work.length = 1 ∧ m.results = []) ∨ (m.work = [] ∧ m.results.length = 1) := by
  obtain ⟨frames, task, l⟩ := s
  have htask := h.task
  cases task with
  | start node => exact .inl ⟨by rw [htask.1]; rfl, htask.2⟩
  | deliver result => exact .inr ⟨htask.1, by rw [htask.2]; rfl⟩

theorem At.observe_narrow (hat : m.At s) (h : m.Narrow) : m.observe.Narrow := by
  rcases hat.one_item with ⟨hwork, hresults⟩ | ⟨hwork, hresults⟩
  · exact h.observe (Nat.le_of_eq hwork) (by rw [hresults]; exact Nat.zero_le _)
  · exact h.observe (by rw [hwork]; exact Nat.zero_le _) (Nat.le_of_eq hresults)

theorem Narrow.goes (h : m.Narrow) (hat : m.At s) (hgoes : Goes g ignorables m m') : m'.Narrow := by
  have hseen := hat.observe_narrow h
  obtain ⟨frames, task, l⟩ := s
  have htask := hat.task
  cases task with
  | start node =>
    rw [Goes, advance_start htask.1, start_eq] at hgoes
    cases hgoes
    apply Narrow.make
    exact ⟨hseen.work, hseen.results⟩
  | deliver result =>
    cases frames with
    | nil =>
      rw [Goes, advance_end htask.1 (frames_eq_empty hat.frames)] at hgoes
      cases hgoes
    | cons frame frames =>
      obtain ⟨rest, hpush, -⟩ := frames_eq_push hat.frames
      rw [Goes, advance_deliver htask.1 htask.2 hpush, resume_eq] at hgoes
      cases hgoes
      apply Narrow.make
      exact ⟨hseen.work, hseen.results⟩

/-- a run that is over has one result, and only that -/
theorem At.finished_one (hat : m.At s) (h : m.Narrow)
    (hend : m.observe.advance g ignorables = .finished m') :
    m'.Narrow ∧ ∃ result, s.task = .deliver result ∧ m'.results = [result] ∧
      m'.takeResult.1 = result := by
  obtain ⟨hframes, result, htask, hresult, -, -⟩ := hat.finished hend
  have hfaces := hat.task
  rw [htask] at hfaces
  have hempty : m.frames = .empty := frames_eq_empty (hat.frames.trans hframes)
  rw [advance_end hfaces.1 hempty] at hend
  cases hend
  exact ⟨hat.observe_narrow h, result, htask, hfaces.2, hresult⟩

theorem Narrow.takeResult (h : m.Narrow) : m.takeResult.2.Narrow := by
  rw [Machine.takeResult]
  cases m.results with
  | nil => exact h
  | cons result results => exact ⟨h.work, h.results⟩

theorem Visits.narrow {reader : Reader} {memoize : Bool} {found : List Match}
    (h : Visits g ignorables (fresh reader memoize) found m) : m.Narrow := by
  induction h with
  | first => exact ⟨Nat.zero_le _, Nat.zero_le _⟩
  | request call _ _ ih => exact ih.request call
  | step hvisits hgoes ih =>
    obtain ⟨s, hat⟩ := hvisits.at_of_goes hgoes
    exact ih.goes hat hgoes
  | @finish found m m' hvisits hend ih =>
    rcases hvisits.idle_or_at with hidle | ⟨s, hat⟩
    · rw [advance_end hidle.work hidle.frames] at hend
      cases hend
      apply Narrow.takeResult
      apply ih.observe
      · rw [hidle.work]
        exact Nat.zero_le _
      · rw [hidle.results]
        exact Nat.zero_le _
    · exact (hat.finished_one ih hend).1.takeResult

/-- the frame on top of a machine that has a result to hand over waited for that very result -/
theorem Serving.resumed (h : Serving g ignorables first now origin s) (hat : now.At s)
    (hwork : now.work = []) {frame : Frame τ} {rest : Pile (Frame τ)}
    (hframes : now.frames = rest.push frame) :
    ∃ since node result k, now.results = [result] ∧ Steps g ignorables first since ∧
      since.work = [node] ∧ since.frames = now.frames ∧ frame.Expects g node ∧
      Returns g ignorables since now ∧
      Settles g ignorables k (since.ledger.start g ignorables node) result now.ledger := by
  have hitems : now.frames.items = s.frames := hat.frames
  rw [hframes, Pile.items_push] at hitems
  have htask := hat.task
  cases h with
  | request _ => cases htask.1.symm.trans hwork
  | start _ _ _ => cases htask.1.symm.trans hwork
  | @deliver frames result l x k hpending hsettles =>
    change frame :: rest.items = frames at hitems
    subst hitems
    cases hpending with
    | @frame _ _ node since _ _ hsuspended _ =>
      have hstacks : since.frames = now.frames := by
        apply Pile.ext_items
        rw [hframes, Pile.items_push, hsuspended.stage.frames]
      refine ⟨since, node, result, k, htask.2, hsuspended.reached, hsuspended.stage.task.1, hstacks,
        hsuspended.expects, ⟨hsuspended.waited, Nat.le_of_eq (by rw [hstacks])⟩, ?_⟩
      rw [hat.ledger]
      exact hsettles

/-- the result that a request ends with is what its first move comes to -/
theorem Serving.finished (h : Serving g ignorables first now origin s)
    {result : Option (Fragment τ)} (hframes : s.frames = []) (htask : s.task = .deliver result) :
    ∃ k, Settles g ignorables k origin result s.ledger := by
  cases h with
  | request _ => cases htask
  | start _ _ _ => cases htask
  | @deliver frames result' l x k hpending hsettles =>
    cases htask
    cases hframes
    cases hpending
    exact ⟨k, hsettles⟩

end Machine

open Machine in
/-- **There is one parser to start or one result to hand over, never both and never none.**  This
holds in every state of every request, with or without a memory, after any others, and whether or
not it ever ends.  A frame is resumed with the result of the very part that it was suspended for,
which the graph gives as its part; a request ends with one result, its own, and with empty stacks;
and neither stack has ever held two items. -/
theorem stacks_take_turns (g : Graph τ) (ignorables : List Pattern) (reader : Reader)
    (memoize : Bool) {limit : Nat} {calls : List Call} {replies : List (Reply τ)} {m : Machine τ}
    (hsession : (fresh reader memoize).session? g ignorables limit calls = some (replies, m))
    (call : Call) :
    m.Idle ∧ ∀ a, Steps g ignorables (m.request g call) a →
      ((a.work.length = 1 ∧ a.results = []) ∨ (a.work = [] ∧ a.results.length = 1)) ∧
      a.counters.maxWork ≤ 1 ∧ a.counters.maxResults ≤ 1 ∧
      (∀ (frame : Frame τ) (rest : Pile (Frame τ)), a.work = [] → a.frames = rest.push frame →
        ∃ b node result k, a.results = [result] ∧ Steps g ignorables (m.request g call) b ∧
          b.work = [node] ∧ b.frames = a.frames ∧ frame.Expects g node ∧ Returns g ignorables b a ∧
          Settles g ignorables k (b.ledger.start g ignorables node) result a.ledger) ∧
      ∀ last, a.observe.advance g ignorables = .finished last →
        ∃ result m' k, last.results = [result] ∧ last.takeResult = (result, m') ∧ m'.Idle ∧
          m'.counters.maxWork ≤ 1 ∧ m'.counters.maxResults ≤ 1 ∧
          Settles g ignorables k (m.ledger.begin g ignorables call) result m'.ledger := by
  have hidle : m.Idle := (serves_of_session? (fresh_idle reader memoize) hsession).1
  obtain ⟨found, hvisits⟩ := Visits.first.session? (fresh_idle reader memoize) hsession
  refine ⟨hidle, fun a ha => ?_⟩
  obtain ⟨found', hvisits'⟩ := (hvisits.request call hidle).steps ha
  have hnarrow := hvisits'.narrow
  obtain ⟨s, hat, hserving⟩ := ha.serving (at_request hidle call) (serving_request call)
  refine ⟨hat.one_item, hnarrow.work, hnarrow.results, fun frame rest hwork hframes => ?_,
    fun last hend => ?_⟩
  · exact hserving.resumed hat hwork hframes
  · obtain ⟨hframes, result, htask, hresult, hidle', hledger⟩ := hat.finished hend
    obtain ⟨hlast, result', htask', hresults, -⟩ := hat.finished_one hnarrow hend
    cases htask.symm.trans htask'
    obtain ⟨k, hsettles⟩ := hserving.finished hframes htask
    rw [← hledger] at hsettles
    exact ⟨result, last.takeResult.2, k, hresults, Prod.ext hresult rfl, hidle',
      hlast.takeResult.work, hlast.takeResult.results, hsettles⟩

end

namespace Growing

/-- a rule that begins with itself, asked for where it has matched before, and once more -/
theorem stacks_take_turns_after_match :
    ∃ replies m m', machine.session? grammar.compile [] 100 [.rule 0] = some (replies, m) ∧
      m.serve? grammar.compile [] 100 (.rule 0) = some (none, m') ∧ m'.Idle ∧
      m'.counters.maxWork ≤ 1 ∧ m'.counters.maxResults ≤ 1 ∧ 1 < m'.counters.maxFrames := by
  have hview : (machine.session? grammar.compile [] 100 [.rule 0]).map (fun x =>
      (x.2.serve? grammar.compile [] 100 (.rule 0)).map fun y =>
        (y.1.isNone, y.2.counters.maxFrames)) = some (some (true, 3)) := by
    decide +kernel
  obtain ⟨⟨replies, m⟩, hm, hview⟩ := Option.map_eq_some_iff.mp hview
  obtain ⟨⟨result, m'⟩, hm', hview⟩ := Option.map_eq_some_iff.mp hview
  obtain ⟨hnone, hframes⟩ := Prod.mk.inj hview
  cases result with
  | some found => cases hnone
  | none =>
    obtain ⟨a, last, hsteps, hend, htake⟩ := Machine.steps_of_serve? hm'
    have h := stacks_take_turns grammar.compile [] (Reader.first "yxz".toList) true hm (.rule 0)
    obtain ⟨-, -, -, -, hfinish⟩ := h.2 a hsteps
    obtain ⟨result, m₁, k, -, htake₁, hidle, hwork, hresults, -⟩ := hfinish last hend
    cases htake.symm.trans htake₁
    exact ⟨replies, m, m', hm, hm', hidle, hwork, hresults, by rw [hframes]; decide⟩

end Growing

end Packrat
