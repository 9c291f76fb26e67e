import Packrat.Proofs.Journal
import Packrat.Proofs.Memory

/-!
# Every match has a derivation

What a machine finds can be derived from the graph, and the texts read in the derivation are those
that the journal holds for it.

* `Derived`             a match of a parser or of a rule between two places, with what was read for it
                        and its result;
* `Gathered`            so for parsers one after the other, with the trees that they contribute;
* `Awaits`              a parser that has read so much waits for a part;
* `Nested`              the frames of a request wait one for the other, each for its own part;
* `Ledger.Vouched`      the matches that are remembered have derivations over what is recorded of them;
* `Ledger.Vouched.start`, `Ledger.Vouched.resume`   moves keep this, and lead to derivations;
* `Machine.derived_of_serve?`   so after a session, every match has a derivation.
-/

namespace Packrat

section
variable {τ : Type} (g : Graph τ) (ignorables : List Pattern)

mutual

/-- a match from one place to another, with the texts read for it, in order, and its result -/
inductive Derived : Call → List (Reading τ) → Place → Place → Fragment τ → Prop
  | leaf {node : Nat} {source : String} {pattern : Pattern} {role : Role τ} {p q : Place}
      {found : Match} : g.nodes[node]? = some (.leaf source (some pattern) role) →
      lookAlong? ignorables pattern p.rest p = some (found, q) →
      Derived (.parser node) [⟨role, found⟩] p q (role.apply found)
  | sequence {node : Nat} {parts : List Nat} {shape : Shape τ} {readings : List (Reading τ)}
      {p q : Place} {trees : List (Tree τ)} : g.nodes[node]? = some (.sequence parts shape) →
      Gathered parts readings p q trees → Derived (.parser node) readings p q (shape.apply trees)
  | alternative {node choice : Nat} {choices : List Nat} {shape : Shape τ}
      {readings : List (Reading τ)} {p q : Place} {r : Fragment τ} :
      g.nodes[node]? = some (.alternative choices shape) → choice ∈ choices →
      Derived (.parser choice) readings p q r → Derived (.parser node) readings p q (shape.applyOne r)
  | repetition {node inner count : Nat} {bound : Bound} {shape : Shape τ}
      {readings : List (Reading τ)} {p q : Place} {trees : List (Tree τ)} :
      g.nodes[node]? = some (.repetition inner bound shape) →
      Gathered (List.replicate count inner) readings p q trees → bound.least ≤ count →
      Derived (.parser node) readings p q (shape.apply trees)
  | optional {node inner : Nat} {readings : List (Reading τ)} {p q : Place} {r : Fragment τ} :
      g.nodes[node]? = some (.optional inner) → Derived (.parser inner) readings p q r →
      Derived (.parser node) readings p q r
  | nothing {node inner : Nat} {p : Place} : g.nodes[node]? = some (.optional inner) →
      Derived (.parser node) [] p p .nothing
  | reference {node rule : Nat} {name : String} {readings : List (Reading τ)} {p q : Place}
      {r : Fragment τ} : g.nodes[node]? = some (.reference name (some rule)) →
      Derived (.rule rule) readings p q r → Derived (.parser node) readings p q r
  | rule {rule root : Nat} {readings : List (Reading τ)} {p q : Place} {r : Fragment τ} :
      g.root? rule = some root → Derived (.parser root) readings p q r →
      Derived (.rule rule) readings p q r

/-- matches of parsers one after the other, with the texts read for them and the trees that they
contribute -/
inductive Gathered : List Nat → List (Reading τ) → Place → Place → List (Tree τ) → Prop
  | nil {p : Place} : Gathered [] [] p p []
  | snoc {parts : List Nat} {part : Nat} {readings more : List (Reading τ)} {p q q' : Place}
      {trees : List (Tree τ)} {r : Fragment τ} : Gathered parts readings p q trees →
      Derived (.parser part) more q q' r →
      Gathered (parts ++ [part]) (readings ++ more) p q' (trees ++ r.collected)

end

/-- the request is for that rule: by its number, or by a reference to it -/
def Call.Attempts (rule : Nat) : Call → Prop
  | .parser node => ∃ name, g.nodes[node]? = some (.reference name (some rule))
  | .rule number => number = rule

/-- a parser or rule, tried at the place `outer`, has read so much; the frame waits for the part with
that number, which is tried at the place `inner` -/
inductive Awaits : Call → Place → List (Reading τ) → Frame τ → Nat → Place → Prop
  | sequence {node part : Nat} {done todo : List Nat} {shape : Shape τ}
      {readings : List (Reading τ)} {outer inner : Place} {collected : List (Tree τ)} :
      g.nodes[node]? = some (.sequence (done ++ part :: todo) shape) →
      Gathered g ignorables done readings outer inner collected.reverse →
      Awaits (.parser node) outer readings (.sequence todo shape outer collected) part inner
  | alternative {node choice : Nat} {choices todo : List Nat} {shape : Shape τ} {outer : Place} :
      g.nodes[node]? = some (.alternative choices shape) → choice :: todo ⊆ choices →
      Awaits (.parser node) outer [] (.alternative todo shape outer) choice outer
  | repetition {node inner count : Nat} {bound : Bound} {shape : Shape τ}
      {readings : List (Reading τ)} {outer before : Place} {collected : List (Tree τ)} :
      g.nodes[node]? = some (.repetition inner bound shape) →
      Gathered g ignorables (List.replicate count inner) readings outer before collected.reverse →
      Awaits (.parser node) outer readings
        (.repetition inner bound shape count outer before collected) inner before
  | optional {node inner : Nat} {outer : Place} : g.nodes[node]? = some (.optional inner) →
      Awaits (.parser node) outer [] .optional inner outer
  | rule {call : Call} {rule root : Nat} {outer : Place} : call.Attempts g rule →
      g.root? rule = some root → Awaits call outer [] (.rule rule outer) root outer

/-- a result of what was tried at `p`, with the reader at `q` after it: a match is derived, and a failure
has read nothing and stays -/
def Attested (call : Call) (readings : List (Reading τ)) (p q : Place) :
    Option (Fragment τ) → Prop
  | none => q = p ∧ readings = []
  | some r => Derived g ignorables call readings p q r

/-- a move of what was tried at `outer` and has read so much, with the reader at `here` after it -/
def Move.Attested (call : Call) (readings : List (Reading τ)) (outer here : Place) :
    Move τ → Prop
  | .answer none => here = outer
  | .answer (some r) => Derived g ignorables call readings outer here r
  | .wait frame node => Awaits g ignorables call outer readings frame node here

end

section
variable {τ : Type} {g : Graph τ} {ignorables : List Pattern}

mutual

theorem Derived.le {call : Call} {readings : List (Reading τ)} {p q : Place} {r : Fragment τ} :
    Derived g ignorables call readings p q r → p ≤ q
  | .leaf _ hlook => le_lookAlong? _ hlook
  | .sequence _ h => h.le
  | .alternative _ _ h => h.le
  | .repetition _ h _ => h.le
  | .optional _ h => h.le
  | .nothing _ => Place.le_refl _
  | .reference _ h => h.le
  | .rule _ h => h.le

theorem Gathered.le {parts : List Nat} {readings : List (Reading τ)} {p q : Place}
    {trees : List (Tree τ)} : Gathered g ignorables parts readings p q trees → p ≤ q
  | .nil => Place.le_refl _
  | .snoc hparts hpart => Place.le_trans hparts.le hpart.le

end

/-- what is derived for a rule is derived for each request for it -/
theorem Derived.attempt {call : Call} {rule : Nat} {readings : List (Reading τ)} {p q : Place}
    {r : Fragment τ} (hcall : call.Attempts g rule)
    (h : Derived g ignorables (.rule rule) readings p q r) :
    Derived g ignorables call readings p q r := by
  cases call with
  | parser node =>
    obtain ⟨name, hnode⟩ := hcall
    exact .reference hnode h
  | rule number =>
    cases hcall
    exact h

theorem Attested.le {call : Call} {readings : List (Reading τ)} {p q : Place}
    {result : Option (Fragment τ)} (h : Attested g ignorables call readings p q result) : p ≤ q := by
  cases result with
  | none => exact h.1 ▸ Place.le_refl p
  | some r => exact Derived.le h

theorem Awaits.le {call : Call} {readings : List (Reading τ)} {frame : Frame τ} {part : Nat}
    {outer inner : Place} (h : Awaits g ignorables call outer readings frame part inner) :
    outer ≤ inner := by
  cases h with
  | sequence _ h => exact h.le
  | alternative _ _ => exact Place.le_refl outer
  | repetition _ h => exact h.le
  | optional _ => exact Place.le_refl outer
  | rule _ _ => exact Place.le_refl outer

namespace Ledger

/-- the reader stands at or after `p`, and each attempt that is remembered began at or after `p`; a match
has a derivation over what is recorded of it -/
structure Vouched (g : Graph τ) (ignorables : List Pattern) (p : Place)
    (recorded : Memo.Key → List (Reading τ)) (l : Ledger τ) : Prop where
  here : p ≤ l.reader.place
  memo : ∀ {key result stop}, l.known? key = some (.done result stop) →
    ∃ start, p ≤ start ∧ start.offset = key.offset ∧
      Attested g ignorables (.rule key.rule) (recorded key) start stop result

/-- a move of what was tried at `outer` and has read so much: it is as the graph says, and the ledger is
vouched for -/
structure Bears (g : Graph τ) (ignorables : List Pattern) (p : Place)
    (recorded : Memo.Key → List (Reading τ)) (call : Call) (readings : List (Reading τ))
    (outer : Place) (x : Move τ × Ledger τ) : Prop where
  vouched : x.2.Vouched g ignorables p recorded
  move : x.1.Attested g ignorables call readings outer x.2.reader.place

variable {p outer inner : Place} {recorded : Memo.Key → List (Reading τ)} {call : Call}
  {readings more : List (Reading τ)} {l : Ledger τ}

/-- a move that leaves the reader and the memory alone -/
theorem Vouched.stay (h : l.Vouched g ignorables p recorded) {l' : Ledger τ}
    (hreader : l'.reader = l.reader) (hmemo : l'.memo = l.memo) {move : Move τ}
    (hmove : move.Attested g ignorables call readings outer l.reader.place) :
    Bears g ignorables p recorded call readings outer (move, l') := by
  refine ⟨⟨?_, fun {key result stop} hkey => ?_⟩, ?_⟩
  · show p ≤ l'.reader.place
    rw [hreader]
    exact h.here
  · have hknown : l'.known? key = l.known? key := by rw [known?, known?, hmemo]
    exact h.memo (hknown.symm.trans hkey)
  · show move.Attested g ignorables call readings outer l'.reader.place
    rw [hreader]
    exact hmove

/-- a failure that leaves the reader and the memory alone -/
theorem Vouched.miss (h : l.Vouched g ignorables p recorded) {l' : Ledger τ}
    (hreader : l'.reader = l.reader) (hmemo : l'.memo = l.memo) :
    Bears g ignorables p recorded call readings l.reader.place (.answer none, l') :=
  h.stay hreader hmemo rfl

theorem Vouched.back (h : l.Vouched g ignorables p recorded) {q : Place} (hq : p ≤ q)
    {move : Move τ} (hmove : move.Attested g ignorables call readings outer q) :
    Bears g ignorables p recorded call readings outer (move, l.moveTo q) :=
  ⟨⟨hq, h.memo⟩, hmove⟩

/-- an attempt that is remembered was made at this very place, since the offset determines it -/
theorem Vouched.known (h : l.Vouched g ignorables p recorded) {rule : Nat}
    {result : Option (Fragment τ)} {stop : Place}
    (hentry : l.known? (l.key rule) = some (.done result stop)) :
    Attested g ignorables (.rule rule) (recorded (l.key rule)) l.reader.place stop result := by
  obtain ⟨start, hstart, hoffset, hattested⟩ := h.memo hentry
  have hplace : start = l.reader.place := Place.le_ext hstart h.here hoffset
  rw [hplace] at hattested
  exact hattested

theorem Vouched.begun (h : l.Vouched g ignorables p recorded) (rule : Nat) :
    (l.begun rule).Vouched g ignorables p recorded := by
  refine ⟨by rw [begun_reader]; exact h.here, fun {key result stop} hkey => ?_⟩
  by_cases hne : key = l.key rule
  · have hmemo : l.memo.isSome = true := begun_memo_isSome l rule ▸ isSome_of_known? hkey
    rw [hne, known?_begun_self hmemo] at hkey
    cases hkey
  · rw [known?_begun_of_ne hne] at hkey
    exact h.memo hkey

/-- **An attempt at a rule begins, fails at once or comes from memory**, and what comes from memory has
a derivation over what is recalled. -/
theorem Vouched.enter {j : Journal τ} (h : l.Vouched g ignorables p j.recorded) {rule : Nat}
    (hcall : call.Attempts g rule) :
    Bears g ignorables p j.recorded call (j.recalled l rule) l.reader.place (l.enter g rule) := by
  cases hroot : g.root? rule with
  | none =>
    rw [enter_undefined hroot]
    exact h.miss rfl rfl
  | some root =>
    cases hentry : l.known? (l.key rule) with
    | none =>
      have hrecalled : j.recalled l rule = [] := by rw [Journal.recalled, hentry]
      rw [enter_absent hroot hentry, hrecalled]
      refine ⟨h.begun rule, ?_⟩
      show Awaits g ignorables call l.reader.place [] _ root (l.begun rule).reader.place
      rw [begun_reader]
      exact .rule hcall hroot
    | some entry =>
      cases entry with
      | inProgress =>
        rw [enter_inProgress hroot hentry]
        exact h.miss rfl rfl
      | done result stop =>
        have hrecalled : j.recalled l rule = j.recorded (l.key rule) := by
          rw [Journal.recalled, hentry]
        have hknown := h.known hentry
        rw [enter_done hroot hentry, hrecalled]
        refine ⟨⟨Place.le_trans h.here hknown.le, h.memo⟩, ?_⟩
        cases result with
        | none => exact hknown.1
        | some r => exact Derived.attempt hcall hknown

/-- a sequence goes on with its parts, or has its result -/
theorem Vouched.proceed (h : l.Vouched g ignorables p recorded) {node : Nat}
    {done todo : List Nat} {shape : Shape τ} {collected : List (Tree τ)}
    (hnode : g.nodes[node]? = some (.sequence (done ++ todo) shape))
    (hdone : Gathered g ignorables done readings outer l.reader.place collected.reverse) :
    Bears g ignorables p recorded (.parser node) readings outer
      (l.proceed todo shape outer collected) := by
  cases todo with
  | nil =>
    rw [List.append_nil] at hnode
    exact h.stay rfl rfl (.sequence hnode hdone)
  | cons part todo => exact h.stay rfl rfl (.sequence hnode hdone)

/-- an alternative goes on with its choices, or has failed -/
theorem Vouched.choose (h : l.Vouched g ignorables p recorded) {node : Nat}
    {choices todo : List Nat} {shape : Shape τ}
    (hnode : g.nodes[node]? = some (.alternative choices shape)) (htodo : todo ⊆ choices) :
    Bears g ignorables p recorded (.parser node) [] l.reader.place
      (l.choose todo shape l.reader.place) := by
  cases todo with
  | nil => exact h.miss rfl rfl
  | cons choice todo => exact h.stay rfl rfl (.alternative hnode htodo)

/-- a repetition that ends has its result, or has failed -/
theorem Vouched.endRepetition (h : l.Vouched g ignorables p recorded) (houter : p ≤ outer)
    {node inner count : Nat} {bound : Bound} {shape : Shape τ} {collected : List (Tree τ)}
    (hnode : g.nodes[node]? = some (.repetition inner bound shape))
    (hrounds : Gathered g ignorables (List.replicate count inner) readings outer l.reader.place
      collected.reverse) :
    Bears g ignorables p recorded (.parser node) readings outer
      (l.endRepetition bound shape count outer collected) := by
  rw [Ledger.endRepetition]
  split
  · exact h.back houter rfl
  · next hcount => exact h.stay rfl rfl (.repetition hnode hrounds (Nat.not_lt.mp hcount))

/-- **A parser that is started does as the graph says.** -/
theorem Vouched.start {j : Journal τ} (h : l.Vouched g ignorables p j.recorded) (node : Nat) :
    Bears g ignorables p j.recorded (.parser node) (j.read g ignorables l node) l.reader.place
      (l.start g ignorables node) := by
  cases hnode : g.nodes[node]? with
  | none =>
    rw [Ledger.start, hnode]
    exact h.miss rfl rfl
  | some found =>
    cases found with
    | sequence parts shape =>
      rw [start_sequence hnode, Journal.read, hnode]
      have hparts : g.nodes[node]? = some (.sequence ([] ++ parts) shape) := hnode
      exact h.proceed hparts .nil
    | alternative choices shape =>
      rw [start_alternative hnode, Journal.read, hnode]
      exact h.choose hnode (List.Subset.refl choices)
    | repetition inner bound shape =>
      rw [Ledger.start, Journal.read, hnode]
      exact h.stay rfl rfl (.repetition hnode .nil)
    | optional inner =>
      rw [Ledger.start, Journal.read, hnode]
      exact h.stay rfl rfl (.optional hnode)
    | leaf source pattern role =>
      cases pattern with
      | none =>
        rw [Ledger.start, hnode]
        exact h.miss rfl rfl
      | some pattern =>
        rw [Ledger.start, Journal.read, hnode]
        show Bears g ignorables p j.recorded _
          ((l.reader.look? ignorables pattern).map fun x => (⟨role, x.1⟩ : Reading τ)).toList
          l.reader.place (l.readLeaf ignorables pattern role)
        rw [readLeaf]
        cases hlook : l.reader.look? ignorables pattern with
        | none => exact h.miss rfl rfl
        | some found =>
          obtain ⟨m, r⟩ := found
          obtain ⟨q, hq, rfl⟩ := Reader.look?_eq_some.mp hlook
          have hforward : l.reader.place ≤ q := le_lookAlong? _ hq
          exact ⟨⟨Place.le_trans h.here hforward, h.memo⟩, .leaf hnode hq⟩
    | reference name rule =>
      cases rule with
      | none =>
        rw [Ledger.start, hnode]
        exact h.miss rfl rfl
      | some rule =>
        rw [Ledger.start, Journal.read, hnode]
        exact h.enter ⟨name, hnode⟩

/-- the end of an attempt is remembered, and what was read for it is recorded -/
theorem Vouched.closed (h : l.Vouched g ignorables p recorded) (houter : p ≤ outer)
    {result : Option (Fragment τ)} {rule : Nat}
    (hresult : Attested g ignorables (.rule rule) readings outer l.reader.place result) :
    (l.closed rule outer result).Vouched g ignorables p
      ((Frame.rule rule outer : Frame τ).records readings recorded) := by
  refine ⟨h.here, fun {key result' stop} hkey => ?_⟩
  by_cases hne : key = ⟨outer.offset, rule⟩
  · have hmemo := isSome_of_closed hkey
    rw [hne, known?_closed_self hmemo] at hkey
    cases hkey
    refine ⟨outer, houter, by rw [hne], ?_⟩
    rw [hne, Frame.records_rule_self]
    exact hresult
  · rw [known?_closed_of_ne hne] at hkey
    rw [Frame.records_rule_of_ne _ _ hne]
    exact h.memo hkey

/-- **A frame that is resumed does as the graph says**, if its part did. -/
theorem Vouched.resume (h : l.Vouched g ignorables p recorded) (houter : p ≤ outer)
    {frame : Frame τ} {part : Nat} {result : Option (Fragment τ)}
    (hframe : Awaits g ignorables call outer readings frame part inner)
    (hpart : Attested g ignorables (.parser part) more inner l.reader.place result) :
    Bears g ignorables p (frame.records (readings ++ more) recorded) call (readings ++ more) outer
      (l.resume frame result) := by
  cases hframe with
  | @sequence node part done todo shape _ _ _ collected hnode hdone =>
    cases result with
    | none => cases todo <;> exact h.back houter rfl
    | some r =>
      rw [resume_sequence]
      rw [List.append_cons] at hnode
      refine h.proceed hnode ?_
      rw [List.reverse_append, List.reverse_reverse]
      exact .snoc hdone hpart
  | @alternative node choice choices todo shape _ hnode hsubset =>
    cases result with
    | none =>
      obtain ⟨hstay, rfl⟩ := hpart
      rw [resume_alternative]
      exact Vouched.choose (l := l.moveTo outer) ⟨houter, h.memo⟩ hnode
        fun choice hchoice => hsubset (List.mem_cons_of_mem _ hchoice)
    | some r => cases todo <;> exact h.stay rfl rfl (.alternative hnode (hsubset List.mem_cons_self) hpart)
  | @repetition node _ count bound shape _ _ _ collected hnode hrounds =>
    cases result with
    | none =>
      obtain ⟨hstay, rfl⟩ := hpart
      rw [← hstay] at hrounds
      rw [List.append_nil]
      exact h.endRepetition houter hnode hrounds
    | some r =>
      have hmore : Gathered g ignorables (List.replicate (count + 1) part) (readings ++ more) outer
          l.reader.place (r.collected.reverse ++ collected).reverse := by
        rw [List.replicate_succ', List.reverse_append, List.reverse_reverse]
        exact .snoc hrounds hpart
      by_cases hmoved : inner.offset < l.reader.offset
      · rw [resume_moved hmoved]
        exact h.stay rfl rfl (.repetition hnode hmore)
      · rw [resume_still (Nat.not_lt.mp hmoved)]
        have hstalled : (l.stalled inner).Vouched g ignorables p recorded := ⟨h.here, h.memo⟩
        exact hstalled.endRepetition houter hnode hmore
  | @optional node body _ hnode =>
    cases result with
    | none =>
      obtain ⟨hstay, rfl⟩ := hpart
      refine h.stay rfl rfl ?_
      show Derived g ignorables (.parser node) [] outer l.reader.place .nothing
      rw [hstay]
      exact .nothing hnode
    | some r => exact h.stay rfl rfl (.optional hnode hpart)
  | @rule _ rule root _ hcall hroot =>
    have hrule : Attested g ignorables (.rule rule) more outer l.reader.place result := by
      cases result with
      | none => exact hpart
      | some r => exact Derived.rule hroot hpart
    refine ⟨h.closed houter hrule, ?_⟩
    cases result with
    | none => exact hrule.1
    | some r => exact Derived.attempt hcall hrule

end Ledger

/-! ## the frames of a request -/

/-- these frames wait one for the other, each with what its parser has read so far: from a request that
was taken up at `base` to a part that was tried at the place given last -/
inductive Nested (g : Graph τ) (ignorables : List Pattern) (call : Call) (base : Place) :
    List (Frame τ) → List (List (Reading τ)) → Call → Place → Prop
  | here : Nested g ignorables call base [] [] call base
  | frame {frame : Frame τ} {frames : List (Frame τ)} {readings : List (Reading τ)}
      {behind : List (List (Reading τ))} {whole : Call} {part : Nat} {outer inner : Place} :
      Nested g ignorables call base frames behind whole outer →
      Awaits g ignorables whole outer readings frame part inner →
      Nested g ignorables call base (frame :: frames) (readings :: behind) (.parser part) inner

theorem Nested.le {call part : Call} {base inner : Place} {frames : List (Frame τ)}
    {behind : List (List (Reading τ))}
    (h : Nested g ignorables call base frames behind part inner) : base ≤ inner := by
  induction h with
  | here => exact Place.le_refl base
  | frame _ hawaits ih => exact Place.le_trans ih hawaits.le

/-- the part that was tried at `inner` is to be started there, or has its result -/
def Task.Attested (g : Graph τ) (ignorables : List Pattern) (part : Call)
    (latest : List (Reading τ)) (inner here : Place) : Task τ → Prop
  | .start node => part = .parser node ∧ here = inner
  | .deliver result => Packrat.Attested g ignorables part latest inner here result

namespace Stage
variable {p base : Place} {call : Call} {s s' : Stage τ} {j : Journal τ}

/-- what a request has come to, with its journal: the frames wait for what the graph says, and all that
is known has been derived -/
structure Borne (g : Graph τ) (ignorables : List Pattern) (p base : Place) (call : Call)
    (s : Stage τ) (j : Journal τ) : Prop where
  vouched : s.ledger.Vouched g ignorables p j.recorded
  started : p ≤ base
  nested : ∃ part inner, Nested g ignorables call base s.frames j.behind part inner ∧
    s.task.Attested g ignorables part j.latest inner s.ledger.reader.place

/-- what a move leads to, if these frames wait for it -/
theorem Borne.after {frames : List (Frame τ)} {whole : Call} {outer : Place}
    {readings : List (Reading τ)} {x : Move τ × Ledger τ} (hbase : p ≤ base)
    (hframes : Nested g ignorables call base frames j.behind whole outer)
    (hx : Ledger.Bears g ignorables p j.recorded whole readings outer x) :
    (Stage.after frames x).Borne g ignorables p base call (j.settle readings x.1) := by
  obtain ⟨move, l⟩ := x
  cases move with
  | answer result =>
    cases result with
    | none => exact ⟨hx.vouched, hbase, whole, outer, hframes, hx.move, rfl⟩
    | some r => exact ⟨hx.vouched, hbase, whole, outer, hframes, hx.move⟩
  | wait frame node =>
    exact ⟨hx.vouched, hbase, .parser node, l.reader.place, hframes.frame hx.move, rfl, rfl⟩

/-- **A step goes on with the derivations.** -/
theorem Borne.step (h : s.Borne g ignorables p base call j) (hstep : s.Step g ignorables s') :
    s'.Borne g ignorables p base call (s.next g ignorables j) := by
  obtain ⟨part, inner, hnested, htask⟩ := h.nested
  cases hstep with
  | start frames node l =>
    obtain ⟨rfl, rfl⟩ := htask
    exact Borne.after h.started hnested (h.vouched.start node)
  | resume frame frames result l =>
    cases hbehind : j.behind with
    | nil =>
      rw [hbehind] at hnested
      cases hnested
    | cons readings behind =>
      rw [hbehind] at hnested
      cases hnested with
      | @frame _ _ _ _ whole part outer _ hframes hawaits =>
        have hx := h.vouched.resume (Place.le_trans h.started hframes.le) hawaits htask
        show (Stage.after frames (l.resume frame result)).Borne g ignorables p base call
          (j.resume l frame result)
        rw [Journal.resume, hbehind]
        exact Borne.after (j := ⟨behind, j.latest, _⟩) h.started hframes hx

theorem Borne.request {l : Ledger τ} (h : l.Vouched g ignorables p j.recorded)
    (hj : j.behind = []) (call : Call) :
    (Stage.request g l call).Borne g ignorables p l.reader.place call (j.request g l call) := by
  have hhere : Nested g ignorables call l.reader.place [] j.behind call l.reader.place := by
    rw [hj]
    exact .here
  cases call with
  | parser node => exact ⟨h, h.here, .parser node, l.reader.place, hhere, rfl, rfl⟩
  | rule rule => exact Borne.after h.here hhere (h.enter rfl)

end Stage

/-! ## sessions -/

namespace Machine
variable {p : Place} {limit : Nat} {m m' : Machine τ} {j : Journal τ}

/-- **The result of a request is derived from what the journal holds for it.** -/
theorem attested_of_serve? (hm : m.Idle) (hl : m.ledger.Vouched g ignorables p j.recorded)
    (hj : j.behind = []) {call : Call} {result : Option (Fragment τ)}
    (h : m.serve? g ignorables limit call = some (result, m')) :
    ∃ j', m.journal? g ignorables limit j [call] = some (m', j') ∧ m'.Idle ∧
      m'.ledger.Vouched g ignorables p j'.recorded ∧ j'.behind = [] ∧
      Attested g ignorables call j'.latest m.reader.place m'.reader.place result := by
  rw [serve?_eq, finish?] at h
  obtain ⟨last, hrun, htake⟩ := Option.map_eq_some_iff.mp h
  have hrequest := Stage.Borne.request hl hj call
  obtain ⟨l, j', htrack, hborne, hidle, hledger⟩ := At.track
    (P := Stage.Borne g ignorables p m.reader.place call) (fun hstep hs => hs.step hstep)
    (at_request hm call) hrequest hrun
  rw [htake] at hborne hidle hledger
  obtain ⟨part, inner, hnested, htask⟩ := hborne.nested
  have hvouched := hborne.vouched
  cases hledger
  -- no frame is left, so what has its result is the request itself
  generalize hbehind : j'.behind = behind at hnested
  cases hnested with
  | here =>
    refine ⟨j', ?_, hidle, hvouched, hbehind, htask⟩
    rw [journal?, htrack]
    show some (last.takeResult.2, j') = some (m', j')
    rw [htake]

theorem journal?_cons {call : Call} {calls : List Call} :
    m.journal? g ignorables limit j (call :: calls) =
      (m.journal? g ignorables limit j [call]).bind fun x =>
        x.1.journal? g ignorables limit x.2 calls :=
  journal?_append limit m j [call] calls

/-- what is remembered after a session has been derived -/
theorem vouched_of_session? {calls : List Call} {replies : List (Reply τ)} (hm : m.Idle)
    (hl : m.ledger.Vouched g ignorables p j.recorded) (hj : j.behind = [])
    (h : m.session? g ignorables limit calls = some (replies, m')) :
    ∃ j', m.journal? g ignorables limit j calls = some (m', j') ∧ m'.Idle ∧
      m'.ledger.Vouched g ignorables p j'.recorded ∧ j'.behind = [] := by
  induction calls generalizing m j replies with
  | nil =>
    cases h
    exact ⟨j, rfl, hm, hl, hj⟩
  | cons call calls ih =>
    rw [session?] at h
    split at h
    · cases h
    · next result m₁ hserve =>
      obtain ⟨j₁, hj₁, hm₁, hl₁, hbehind, -⟩ := attested_of_serve? hm hl hj hserve
      split at h
      · cases h
      · next replies' m₂ hsession =>
        cases h
        rw [journal?_cons, hj₁]
        exact ih hm₁ hl₁ hbehind hsession

theorem fresh_vouched (reader : Reader) (memoize : Bool)
    (recorded : Memo.Key → List (Reading τ)) :
    (fresh reader memoize).ledger.Vouched g ignorables reader.place recorded := by
  refine ⟨Place.le_refl _, fun {key result stop} hkey => ?_⟩
  rw [fresh_known?] at hkey
  cases hkey

/-- **Every match has a derivation**, after any session, over the texts that the journal of the session
holds for it. -/
theorem derived_of_serve? {reader : Reader} {memoize : Bool} {calls : List Call}
    {replies : List (Reply τ)}
    (hsession : (fresh reader memoize).session? g ignorables limit calls = some (replies, m))
    {call : Call} {r : Fragment τ} (h : m.serve? g ignorables limit call = some (some r, m')) :
    ∃ j, (fresh reader memoize).journal? g ignorables limit {} (calls ++ [call]) = some (m', j) ∧
      reader.place ≤ m.reader.place ∧
      Derived g ignorables call j.latest m.reader.place m'.reader.place r := by
  obtain ⟨j, hj, hm, hl, hbehind⟩ := vouched_of_session? (j := {}) (fresh_idle reader memoize)
    (fresh_vouched reader memoize _) rfl hsession
  obtain ⟨j', hj', -, -, -, hderived⟩ := attested_of_serve? hm hl hbehind h
  refine ⟨j', ?_, hl.here, hderived⟩
  rw [journal?_append, hj]
  exact hj'

end Machine

end

end Packrat
