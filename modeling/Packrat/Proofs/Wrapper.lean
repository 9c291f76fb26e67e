import Packrat.Proofs.Factoring
import Packrat.Proofs.Makeup
import Packrat.Proofs.Mirror
import Packrat.Proofs.Outcomes

/-!
# A rule that only calls another

A text can be parsed with a rule, or with another rule that does nothing but call it.  The second
adds an attempt of its own at the same offset, which nothing asks for.

* `Graph.Spares`         no parser refers to the rule with that number;
* `Ledger.Beside`        the same run, whatever is remembered of that rule;
* `Ledger.Beside.start`, `Ledger.Beside.resume`   both do the same, and stay so;
* `Ledger.missed`        the same run after one more attempt, which changes nothing else;
* `Settles.entered`      so the called rule comes to the same inside the attempt;
* `Settles.sequence_first`, `Settles.alternative_first`   a single part passes its result on;
* `Grammar.Wraps`        the rule only calls another, and is not called itself;
* `wrapper_unseen`       the two parse every text alike.
-/

namespace Packrat

section
variable {τ : Type} {g : Graph τ} {ignorables : List Pattern} {w : Nat}

/-! ## an attempt that nothing asks for -/

/-- no parser refers to the rule -/
def Graph.Spares (g : Graph τ) (w : Nat) : Prop :=
  ∀ (n : Nat) (name : String), g.nodes[n]? ≠ some (.reference name (some w))

namespace Ledger

/-- the same has been read and counted, and the same is remembered of all rules but `w` -/
structure Beside (w : Nat) (l l' : Ledger τ) : Prop where
  reader : l'.reader = l.reader
  tally : l'.tally = l.tally
  memo : l'.memo = none ↔ l.memo = none
  known : ∀ {key : Memo.Key}, key.rule ≠ w → l'.known? key = l.known? key

theorem Beside.congruence (w : Nat) : Congruence (Beside (τ := τ) w) fun _ => True where
  same h := by rw [h.reader]
  here _ := trivial
  moveTo h _ := { h with reader := by rw [moveTo, moveTo, h.reader] }
  readTo h _ := { h with reader := by rw [readTo, readTo, h.reader] }
  count f _ h := { h with tally := by rw [count, count, h.tally] }
  note _ _ h := { h with }

variable {l l' : Ledger τ}

theorem remember_of_none (h : l.memo = none) (key : Memo.Key) (entry : Memo.Entry τ) :
    l.remember key entry = l := by
  cases l with
  | mk reader memo tally events =>
    cases h
    rfl

namespace Beside

theorem note (h : Beside w l l') (e e' : Event) : Beside w (l.note e) (l'.note e') := { h with }

theorem count (h : Beside w l l') (f : Tally → Tally) : Beside w (l.count f) (l'.count f) :=
  { h with tally := by rw [Ledger.count, Ledger.count, h.tally] }

theorem key (h : Beside w l l') (rule : Nat) : l'.key rule = l.key rule :=
  key_congr (by rw [h.reader]) rule

theorem remember (h : Beside w l l') (key : Memo.Key) (entry : Memo.Entry τ) :
    Beside w (l.remember key entry) (l'.remember key entry) := by
  by_cases hmemo : l.memo = none
  · rw [remember_of_none hmemo, remember_of_none (h.memo.mpr hmemo)]
    exact h
  · have hsome := Option.isSome_iff_ne_none.mpr hmemo
    have hsome' := Option.isSome_iff_ne_none.mpr (mt h.memo.mp hmemo)
    refine ⟨h.reader, h.tally, ?_, fun {key'} hkey' => ?_⟩
    · rw [Ledger.remember, Ledger.remember, Option.map_eq_none_iff, Option.map_eq_none_iff]
      exact h.memo
    · by_cases hne : key' = key
      · rw [hne, known?_remember_self hsome, known?_remember_self hsome']
      · rw [known?_remember_of_ne hne, known?_remember_of_ne hne]
        exact h.known hkey'

theorem begun (h : Beside w l l') (rule : Nat) : Beside w (l.begun rule) (l'.begun rule) := by
  cases hmemo : l.memo with
  | none =>
    rw [begun_of_none hmemo, begun_of_none (h.memo.mpr hmemo)]
    exact h.note _ _
  | some memo =>
    have hmemo' : l'.memo ≠ none := mt h.memo.mp (by rw [hmemo]; exact Option.some_ne_none _)
    obtain ⟨memo', hmemo'⟩ := Option.ne_none_iff_exists'.mp hmemo'
    rw [Ledger.begun, Ledger.begun, hmemo, hmemo']
    show Beside w ((l.embark rule).opened rule) ((l'.embark rule).opened rule)
    rw [embark, embark, h.key]
    exact ((h.count _).remember _ _).note _ _

/-- an attempt at another rule comes to the same -/
theorem enter (h : Beside w l l') {rule : Nat} (hne : rule ≠ w) :
    (l.enter g rule).1 = (l'.enter g rule).1 ∧ Beside w (l.enter g rule).2 (l'.enter g rule).2 := by
  cases hroot : g.root? rule with
  | none =>
    rw [enter_undefined hroot, enter_undefined hroot]
    exact ⟨rfl, h⟩
  | some root =>
    have hknown : l'.known? (l'.key rule) = l.known? (l.key rule) := by
      rw [h.key]
      exact h.known hne
    cases hentry : l.known? (l.key rule) with
    | none =>
      rw [enter_absent hroot hentry, enter_absent hroot (hknown.trans hentry), h.reader]
      exact ⟨rfl, h.begun rule⟩
    | some entry =>
      cases entry with
      | inProgress =>
        rw [enter_inProgress hroot hentry, enter_inProgress hroot (hknown.trans hentry)]
        exact ⟨rfl, (h.count _).note _ _⟩
      | done result stop =>
        rw [enter_done hroot hentry, enter_done hroot (hknown.trans hentry)]
        exact ⟨rfl, (congruence w).moveTo (h.count _) trivial⟩

/-- **A parser is started alike, whatever is remembered of a rule that nothing refers to.** -/
theorem start (hg : g.Spares w) (h : Beside w l l') (node : Nat) :
    (l.start g ignorables node).1 = (l'.start g ignorables node).1 ∧
      Beside w (l.start g ignorables node).2 (l'.start g ignorables node).2 := by
  by_cases hnode : ∃ name rule, g.nodes[node]? = some (.reference name (some rule))
  · obtain ⟨name, rule, hnode⟩ := hnode
    have hne : rule ≠ w := by
      rintro rfl
      exact hg node name hnode
    rw [start_reference hnode, start_reference hnode]
    exact h.enter hne
  · have halike := start_alike_of_plain g ignorables (congruence w) h
      fun name rule hrule => hnode ⟨name, rule, hrule⟩
    exact ⟨halike.move, halike.ledger⟩

theorem resume (h : Beside w l l') (frame : Frame τ) (part : Option (Fragment τ)) :
    (l.resume frame part).1 = (l'.resume frame part).1 ∧
      Beside w (l.resume frame part).2 (l'.resume frame part).2 := by
  rcases frame.rule_or_plain with ⟨rule, start, rfl⟩ | hplain
  · refine ⟨rfl, ?_⟩
    show Beside w (l.closed rule start part) (l'.closed rule start part)
    rw [closed, closed, h.reader]
    exact (h.remember _ _).note _ _
  · have halike := resume_alike (congruence w) h hplain part
    exact ⟨halike.move, halike.ledger⟩

end Beside

/-! ## one more attempt that was made before -/

/-- the same run, with one more attempt made before -/
def missed (l : Ledger τ) : Ledger τ := l.count fun t => { t with memoMisses := t.memoMisses + 1 }

theorem begun_missed (l : Ledger τ) (rule : Nat) : l.missed.begun rule = (l.begun rule).missed := by
  have hmemo : l.missed.memo = l.memo := rfl
  rw [begun, begun, hmemo]
  cases l.memo <;> rfl

theorem enter_missed (l : Ledger τ) (rule : Nat) :
    l.missed.enter g rule = ((l.enter g rule).1, (l.enter g rule).2.missed) := by
  cases hroot : g.root? rule with
  | none =>
    rw [enter_undefined hroot, enter_undefined hroot]
  | some root =>
    have hknown : l.missed.known? (l.missed.key rule) = l.known? (l.key rule) := rfl
    cases hentry : l.known? (l.key rule) with
    | none =>
      rw [enter_absent hroot hentry, enter_absent hroot (hknown.trans hentry), begun_missed]
      rfl
    | some entry =>
      cases entry with
      | inProgress =>
        rw [enter_inProgress hroot hentry, enter_inProgress hroot (hknown.trans hentry)]
        rfl
      | done result stop =>
        rw [enter_done hroot hentry, enter_done hroot (hknown.trans hentry)]
        rfl

theorem readLeaf_missed (l : Ledger τ) (pattern : Pattern) (role : Role τ) :
    l.missed.readLeaf ignorables pattern role =
      ((l.readLeaf ignorables pattern role).1, (l.readLeaf ignorables pattern role).2.missed) := by
  have hreader : l.missed.reader = l.reader := rfl
  rw [readLeaf, readLeaf, hreader]
  cases l.reader.look? ignorables pattern <;> rfl

theorem start_missed (l : Ledger τ) (node : Nat) :
    l.missed.start g ignorables node =
      ((l.start g ignorables node).1, (l.start g ignorables node).2.missed) := by
  rw [start, start]
  cases g.nodes[node]? with
  | none => rfl
  | some found =>
    cases found with
    | sequence parts shape => cases parts <;> rfl
    | alternative choices shape => cases choices <;> rfl
    | repetition inner bound shape => rfl
    | optional inner => rfl
    | leaf source pattern role =>
      cases pattern with
      | none => rfl
      | some pattern => exact l.readLeaf_missed pattern role
    | reference name rule =>
      cases rule with
      | none => rfl
      | some rule => exact l.enter_missed rule

theorem endRepetition_missed (l : Ledger τ) (bound : Bound) (shape : Shape τ) (count : Nat)
    (start : Place) (collected : List (Tree τ)) :
    l.missed.endRepetition bound shape count start collected =
      ((l.endRepetition bound shape count start collected).1,
        (l.endRepetition bound shape count start collected).2.missed) := by
  rw [endRepetition, endRepetition]
  split <;> rfl

theorem resume_missed (l : Ledger τ) (frame : Frame τ) (part : Option (Fragment τ)) :
    l.missed.resume frame part = ((l.resume frame part).1, (l.resume frame part).2.missed) := by
  cases frame with
  | sequence todo shape start collected => cases todo <;> cases part <;> rfl
  | alternative todo shape start => cases todo <;> cases part <;> rfl
  | repetition inner bound shape count start before collected =>
    cases part with
    | none => exact l.endRepetition_missed bound shape count start collected
    | some found =>
      by_cases hmoved : before.offset < l.reader.offset
      · rw [resume_moved hmoved]
        exact resume_moved (l := l.missed) hmoved ..
      · rw [resume_still (Nat.not_lt.mp hmoved)]
        rw [resume_still (l := l.missed) (Nat.not_lt.mp hmoved)]
        exact (l.stalled before).endRepetition_missed bound shape (count + 1) start _
  | optional => cases part <;> rfl
  | rule rule start => rfl

end Ledger

/-- what was counted of the memory before changes nothing else -/
theorem Settles.missed {k : Nat} {x : Move τ × Ledger τ} {r : Option (Fragment τ)} {l : Ledger τ}
    (h : Settles g ignorables k x r l) : Settles g ignorables k (x.1, x.2.missed) r l.missed := by
  induction h with
  | answer r l => exact .answer r l.missed
  | wait _ _ ih₁ ih₂ =>
    rw [← Ledger.start_missed] at ih₁
    rw [← Ledger.resume_missed] at ih₂
    exact .wait ih₁ ih₂

/-- what is counted of parsing, the memory aside -/
def Tally.parsing (t : Tally) : Nat × Nat × Nat × Nat :=
  (t.leafAttempts, t.leafMatches, t.recursionCuts, t.zeroWidthStops)

/-- **A rule comes to the same inside an attempt that nothing asks for.** -/
theorem Settles.entered (hg : g.Spares w) {k rule : Nat} (hne : rule ≠ w) {l l₁ : Ledger τ}
    {r : Option (Fragment τ)} (h : Settles g ignorables k (l.enter g rule) r l₁) :
    ∃ l₂, Settles g ignorables k ((l.begun w).enter g rule) r l₂ ∧ l₂.reader = l₁.reader ∧
      l₂.tally.parsing = l₁.tally.parsing := by
  let l₀ := (l.remember (l.key w) .inProgress).opened w
  have hbeside : l.Beside w l₀ := by
    refine ⟨rfl, rfl, Option.map_eq_none_iff, fun {key} hkey => ?_⟩
    apply Ledger.known?_remember_of_ne
    rintro rfl
    exact hkey rfl
  obtain ⟨l₂, h₂, hl₂⟩ := h.lockstep (fun hl node => hl.start hg node)
    (fun hl frame part => hl.resume frame part) (hbeside.enter hne)
  cases hmemo : l.memo with
  | none =>
    have hbegun : l.begun w = l₀ := by
      rw [Ledger.begun_of_none hmemo, ← Ledger.remember_of_none hmemo (l.key w) .inProgress]
      rfl
    rw [hbegun]
    exact ⟨l₂, h₂, hl₂.reader, by rw [hl₂.tally]⟩
  | some memo =>
    have hbegun : l.begun w = l₀.missed := by
      rw [Ledger.begun, hmemo]
      rfl
    rw [hbegun, Ledger.enter_missed]
    refine ⟨l₂.missed, h₂.missed, hl₂.reader, ?_⟩
    show l₂.tally.parsing = l₁.tally.parsing
    rw [hl₂.tally]

/-! ## a single part -/

theorem Ledger.moveTo_self {l : Ledger τ} {p : Place} (h : l.reader.place = p) :
    l.moveTo p = l := by
  subst h
  rfl

section
variable {n part k : Nat} {l l₁ : Ledger τ} {r : Option (Fragment τ)}

/-- a choice among one passes its result on -/
theorem Settles.alternative_first (hnode : g.nodes[n]? = some (.alternative [part] .first))
    (h : Settles g ignorables k (l.start g ignorables part) r l₁)
    (hback : r = none → l₁.reader.place = l.reader.place) :
    ∃ k', Settles g ignorables k' (l.start g ignorables n) r l₁ := by
  have hrest :
      Settles g ignorables 0 (l₁.resume (.alternative [] .first l.reader.place) r) r l₁ := by
    cases r with
    | none =>
      rw [Ledger.resume_alternative, Ledger.moveTo_self (hback rfl)]
      exact .answer none l₁
    | some found => exact .answer (some found) l₁
  rw [Ledger.start_alternative hnode]
  exact ⟨_, .wait h hrest⟩

/-- a sequence of one part passes its result on, if that is a tree that is kept or nothing -/
theorem Settles.sequence_first (hnode : g.nodes[n]? = some (.sequence [part] .first))
    (h : Settles g ignorables k (l.start g ignorables part) r l₁)
    (hback : r = none → l₁.reader.place = l.reader.place)
    (hfound : ∀ found, r = some found → Shape.first.apply found.collected = found) :
    ∃ k', Settles g ignorables k' (l.start g ignorables n) r l₁ := by
  have hrest :
      Settles g ignorables 0 (l₁.resume (.sequence [] .first l.reader.place []) r) r l₁ := by
    cases r with
    | none =>
      rw [Ledger.resume, Ledger.moveTo_self (hback rfl)]
      exact .answer none l₁
    | some found =>
      rw [Ledger.resume_sequence, Ledger.proceed, List.append_nil, List.reverse_reverse,
        hfound found rfl]
      exact .answer (some found) l₁
  rw [Ledger.start_sequence hnode]
  exact ⟨_, .wait h hrest⟩

end

/-- what a plain shape makes is passed on as it is -/
theorem Shape.first_collected {shape : Shape τ} (h : shape.isPlain = true) (trees : List (Tree τ)) :
    Shape.first.apply (shape.apply trees).collected = shape.apply trees := by
  cases shape with
  | first => cases trees <;> rfl
  | splice tag => rfl
  | all tag => rfl
  | custom f => cases h

/-! ## a rule of a single call -/

/-- a rule that only calls another comes to what that does, if it goes back and its result passes -/
theorem Rule.Stands.passes {wrapper name : String} {root i k : Nat} {l l₁ : Ledger τ}
    {r : Option (Fragment τ)}
    (hstands : (⟨wrapper, [{ steps := [.call name] }]⟩ : Rule τ).Stands g root)
    (hindex : g.ruleIndex? name = some i) (h : Settles g ignorables k (l.enter g i) r l₁)
    (hback : r = none → l₁.reader.place = l.reader.place)
    (hfound : ∀ found, r = some found → Shape.first.apply found.collected = found) :
    ∃ k', Settles g ignorables k' (l.start g ignorables root) r l₁ := by
  obtain ⟨choices, hclauses, hwhole⟩ := hstands
  cases hclauses with
  | @cons _ n _ _ hclause hnone =>
    cases hnone
    obtain ⟨parts, hnode, hsteps⟩ := hclause
    cases hsteps with
    | @cons _ part _ _ hcall hnone =>
      cases hnone
      have hpart : g.nodes[part]? = some (.reference name (some i)) := by
        rw [← hindex]
        exact hcall
      rw [← Ledger.start_reference hpart] at h
      obtain ⟨k', hk'⟩ := h.sequence_first hnode hback hfound
      rcases hwhole with hroot | hroot
      · cases hroot
        exact ⟨k', hk'⟩
      · exact hk'.alternative_first hroot hback

section
variable {index : String → Option Nat} {name : String} {rule : Option Nat} {base : Nat}

theorem Step.reference_of_mem {s : Step τ} (h : .reference name rule ∈ s.nodes index base) :
    rule = index name ∧ name ∈ s.names := by
  cases s with
  | leaf source role => cases List.mem_singleton.mp h
  | call called =>
    cases List.mem_singleton.mp h
    exact ⟨rfl, List.mem_cons_self⟩
  | repetition called bound shape =>
    rcases List.mem_cons.mp h with heq | h
    · cases heq
      exact ⟨rfl, List.mem_cons_self⟩
    · cases List.mem_singleton.mp h
  | maybe called =>
    rcases List.mem_cons.mp h with heq | h
    · cases heq
      exact ⟨rfl, List.mem_cons_self⟩
    · cases List.mem_singleton.mp h
  | anyOf names =>
    rcases List.mem_append.mp h with h | h
    · obtain ⟨called, hcalled, heq⟩ := List.mem_map.mp h
      cases heq
      exact ⟨rfl, hcalled⟩
    · cases List.mem_singleton.mp h

theorem Clause.reference_of_mem {c : Clause τ} (h : .reference name rule ∈ c.nodes index base) :
    rule = index name ∧ ∃ s ∈ c.steps, name ∈ s.names := by
  rcases List.mem_append.mp h with h | h
  · obtain ⟨s, hs, base, hnode⟩ := mem_layOut h
    obtain ⟨hrule, hname⟩ := Step.reference_of_mem hnode
    exact ⟨hrule, s, hs, hname⟩
  · cases List.mem_singleton.mp h

theorem Rule.reference_of_mem {r : Rule τ} (h : .reference name rule ∈ r.nodes index base) :
    rule = index name ∧ ∃ c ∈ r.clauses, ∃ s ∈ c.steps, name ∈ s.names := by
  rcases Rule.nodes_eq index base r with ⟨c, hclauses, hnodes⟩ | hnodes
  · rw [hnodes] at h
    obtain ⟨hrule, hname⟩ := Clause.reference_of_mem h
    exact ⟨hrule, c, by rw [hclauses]; exact List.mem_cons_self, hname⟩
  · rw [hnodes] at h
    rcases List.mem_append.mp h with h | h
    · obtain ⟨c, hc, base, hnode⟩ := mem_layOut h
      obtain ⟨hrule, hname⟩ := Clause.reference_of_mem hnode
      exact ⟨hrule, c, hc, hname⟩
    · cases List.mem_singleton.mp h

end

namespace Grammar
variable {grammar : Grammar τ} {wrapper name : String}

/-- a reference in the graph goes by a name that some step calls -/
theorem reference_of_getElem? {n : Nat} {rule : Option Nat}
    (h : grammar.compile.nodes[n]? = some (.reference name rule)) :
    rule = grammar.index name ∧ ∃ c ∈ grammar.clauses, ∃ s ∈ c.steps, name ∈ s.names := by
  have hmem : .reference name rule ∈ grammar.nodes.1 :=
    List.mem_of_getElem? ((List.getElem?_toArray ..).symm.trans h)
  obtain ⟨r, hr, base, hnode⟩ := mem_layOut hmem
  obtain ⟨hrule, c, hc, hname⟩ := Rule.reference_of_mem hnode
  exact ⟨hrule, c, List.mem_flatMap.mpr ⟨r, hr, hc⟩, hname⟩

/-- the rule of the first name is a single call of the second, and no step of any rule calls it -/
structure Wraps (grammar : Grammar τ) (wrapper name : String) : Prop where
  rule : grammar.rule? wrapper = some ⟨wrapper, [{ steps := [.call name] }]⟩
  unused : ∀ c ∈ grammar.clauses, ∀ s ∈ c.steps, wrapper ∉ s.names

theorem Wraps.ne (h : grammar.Wraps wrapper name) : name ≠ wrapper := by
  rintro rfl
  have hrule := h.rule
  rw [← grammar.find?_definitions] at hrule
  have hclause : { steps := [.call name] } ∈ grammar.clauses :=
    List.mem_flatMap.mpr ⟨_, List.mem_of_find?_eq_some hrule, List.mem_cons_self⟩
  exact h.unused _ hclause _ List.mem_cons_self List.mem_cons_self

theorem Wraps.spares (h : grammar.Wraps wrapper name) {j : Nat}
    (hj : grammar.compile.ruleIndex? wrapper = some j) : grammar.compile.Spares j := by
  intro n called hnode
  obtain ⟨hindex, c, hc, s, hs, hcalled⟩ := reference_of_getElem? hnode
  rw [← grammar.compile_ruleIndex?] at hindex
  have hname : called = wrapper :=
    (grammar.compile_ruleName hindex.symm).symm.trans (grammar.compile_ruleName hj)
  subst hname
  exact h.unused c hc s hs hcalled

end Grammar

/-- the same error for a rule of that name -/
def ParseError.forRule (name : String) : ParseError → ParseError
  | .noMatch _ furthest preview => .noMatch name furthest preview
  | e => e

/-- what is seen of two rules with the same result differs by their names only -/
theorem Graph.seenOf_forRule (g : Graph τ) (i j : Nat) (text : String) (options : Options)
    (result : Option (Fragment τ)) (reader : Reader) :
    g.seenOf j text options result reader =
      ((g.seenOf i text options result reader).1.mapError (ParseError.forRule (g.ruleName j)),
        (g.seenOf i text options result reader).2) := by
  rw [seenOf, seenOf]
  cases result with
  | none => rfl
  | some r =>
    refine Prod.ext ?_ rfl
    show g.resultOf j _ _ _ _ _ (some r) = (g.resultOf i _ _ _ _ _ (some r)).mapError _
    rw [resultOf, resultOf]
    split <;> rfl

/-- the result of a rule without a function of its own passes through a rule that calls it -/
theorem Grammar.passes_of_serve? {grammar : Grammar τ} {name : String} {rule : Rule τ} {i : Nat}
    (hrule : grammar.rule? name = some rule) (hplain : ∀ c ∈ rule.clauses, c.result.isPlain = true)
    (hindex : grammar.compile.ruleIndex? name = some i) {reader : Reader} {memoize : Bool}
    {limit : Nat} {found : Fragment τ} {m : Machine τ}
    (hserve : (Machine.fresh reader memoize).serve? grammar.compile ignorables limit (.rule i) =
      some (some found, m)) : Shape.first.apply found.collected = found := by
  obtain ⟨i', root, hi', hroot, hstands⟩ := grammar.compile_stands.defined hrule
  cases hindex.symm.trans hi'
  have hsession : (Machine.fresh reader memoize).session? grammar.compile ignorables limit [] =
      some ([], Machine.fresh reader memoize) := rfl
  obtain ⟨j, -, -, hderived⟩ := Machine.derived_of_serve? hsession hserve
  cases hderived with
  | rule hroot' h =>
    cases hroot.symm.trans hroot'
    obtain ⟨c, hc, trees, rfl⟩ := h.stands_inv hstands
    exact Shape.first_collected (hplain c hc) trees

/-- **A rule that only calls another parses every text as that does.**  If the other rule has no
function of its own among the shapes of its clauses, and comes to an end, then so does the one that
calls it: with the same tree or the same error, but for the name of the rule; the same offset, and
as much left over; and it has tried and read as many leaves, cut off as many attempts and ended as
many repetitions.  The rules may begin with themselves. -/
theorem wrapper_unseen {grammar : Grammar τ} {wrapper name : String}
    (hwraps : grammar.Wraps wrapper name) {rule : Rule τ} (hrule : grammar.rule? name = some rule)
    (hplain : ∀ c ∈ rule.clauses, c.result.isPlain = true) {i : Nat}
    (hindex : grammar.compile.ruleIndex? name = some i) (text : String) (options : Options)
    {limit : Nat} {o : Outcome τ} (hrun : grammar.compile.run? limit i text options = some o) :
    ∃ j o', grammar.compile.ruleIndex? wrapper = some j ∧
      (∀ outcome, (∃ limit, grammar.compile.run? limit j text options = some outcome) ↔
        outcome = o') ∧
      o'.result = o.result.mapError (ParseError.forRule wrapper) ∧
      o'.consumed = o.consumed ∧ o'.trailing = o.trailing ∧
      o'.counters.recursionCuts = o.counters.recursionCuts ∧
      o'.counters.zeroWidthStops = o.counters.zeroWidthStops ∧
      o'.counters.leafAttempts = o.counters.leafAttempts ∧
      o'.counters.leafMatches = o.counters.leafMatches := by
  obtain ⟨j, root, hj, hroot, hstands⟩ := grammar.compile_stands.defined hwraps.rule
  have hspares := hwraps.spares hj
  have hne : i ≠ j := by
    rintro rfl
    exact hwraps.ne ((grammar.compile_ruleName hindex).symm.trans (grammar.compile_ruleName hj))
  rw [Graph.run?_eq] at hrun
  obtain ⟨⟨result, m⟩, hserve, rfl⟩ := Option.map_eq_some_iff.mp hrun
  obtain ⟨-, k, hk⟩ := Machine.settles_of_serve? (Machine.fresh_idle _ _) hserve
  -- inside the attempt at the wrapper, the rule comes to the same
  obtain ⟨l, hl, hreader, htally⟩ := Settles.entered hspares hne hk
  have hback : result = none → l.reader.place = (Reader.first text.toList).place := by
    intro hnone
    rw [hreader]
    exact (Machine.serve?_keeps hserve).failed hnone
  have hfound : ∀ found, result = some found → Shape.first.apply found.collected = found := by
    rintro found rfl
    exact Grammar.passes_of_serve? hrule hplain hindex hserve
  obtain ⟨k', hk'⟩ := hstands.passes hindex hl (by rw [Ledger.begun_reader]; exact hback) hfound
  have hopening : Settles grammar.compile _ _ (grammar.compile.opening j text options) result _ :=
    .enter_of_root (Machine.fresh_known? ..) hroot hk'
  obtain ⟨o', ho', hseen, htally'⟩ := Graph.run?_iff_of_settles j text options hopening
  have hseen' : (o'.result, o'.consumed, o'.trailing) =
      grammar.compile.seenOf j text options result m.reader :=
    hseen.trans (congrArg (grammar.compile.seenOf j text options result) hreader)
  rw [grammar.compile.seenOf_forRule i j, grammar.compile_ruleName hj] at hseen'
  obtain ⟨hresult, hrest⟩ := Prod.mk.inj hseen'
  obtain ⟨hconsumed, htrailing⟩ := Prod.mk.inj hrest
  have hcounts : o'.counters.tally.parsing = m.counters.tally.parsing := by
    rw [htally']
    exact htally
  obtain ⟨hattempts, hcounts⟩ := Prod.mk.inj hcounts
  obtain ⟨hmatches, hcounts⟩ := Prod.mk.inj hcounts
  obtain ⟨hcuts, hstops⟩ := Prod.mk.inj hcounts
  exact ⟨j, o', hj, ho', hresult, hconsumed, htrailing, hcuts, hstops, hattempts, hmatches⟩

end

namespace Whole

/-- `sum ::= sum "+" number | number`, where numbers are kept, and `whole ::= sum` -/
def grammar : Grammar Unit :=
  Grammar.empty.declare
    (({ name := "sum" } : Rule.Draft Unit).call "sum" |>.hide "\\+" |>.call "number" |>.or
      |>.call "number")
    |>.declare (({ name := "number" } : Rule.Draft Unit).capture "\\d+" ())
    |>.declare (({ name := "whole" } : Rule.Draft Unit).call "sum")

theorem wraps : grammar.Wraps "whole" "sum" := ⟨rfl, by decide +kernel⟩

/-- the sum begins with itself, so an attempt is cut off, also where another rule calls it -/
theorem wrapper_unseen_of_sum :
    ∃ o o' limit tree, grammar.compile.run? 100 0 "1+2" { allowTrailing := true } = some o ∧
      grammar.compile.run? limit 2 "1+2" { allowTrailing := true } = some o' ∧
      o.result = .ok tree ∧ o'.result = .ok tree ∧ o'.consumed = 1 ∧
      o'.counters.recursionCuts = 1 := by
  have hrule : ∃ rule, grammar.rule? "sum" = some rule ∧
      ∀ c ∈ rule.clauses, c.result.isPlain = true := ⟨_, rfl, by decide⟩
  obtain ⟨rule, hrule, hplain⟩ := hrule
  have hindex : grammar.compile.ruleIndex? "sum" = some 0 := by decide +kernel
  have hview : (grammar.compile.run? 100 0 "1+2" { allowTrailing := true }).map (fun o =>
      (o.result.toBool, o.consumed, o.counters.recursionCuts)) = some (true, 1, 1) := by
    decide +kernel
  obtain ⟨o, ho, hview⟩ := Option.map_eq_some_iff.mp hview
  obtain ⟨hok, hview⟩ := Prod.mk.inj hview
  obtain ⟨hone, hcut⟩ := Prod.mk.inj hview
  obtain ⟨j, o', hj, ho', hresult, hconsumed, -, hcuts, -⟩ :=
    wrapper_unseen wraps hrule hplain hindex "1+2" { allowTrailing := true } ho
  have hwhole : grammar.compile.ruleIndex? "whole" = some 2 := by decide +kernel
  cases hwhole.symm.trans hj
  obtain ⟨limit, hlimit⟩ := (ho' o').mpr rfl
  cases hcase : o.result with
  | error e =>
    rw [hcase] at hok
    cases hok
  | ok tree =>
    rw [hcase] at hresult
    exact ⟨o, o', limit, tree, ho, hlimit, hcase, hresult, hconsumed.trans hone, hcuts.trans hcut⟩

end Whole

end Packrat
