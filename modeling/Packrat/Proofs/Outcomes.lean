import Packrat.Proofs.Boundary
import Packrat.Proofs.Compiled

/-!
# What an outcome says

Whether a text goes on after a match is found out by skipping, and where it goes on by skipping once
more.  The two agree with each other, and with the options.

* `skipOne?_skipAll`     where skipping has ended, nothing more can be skipped;
* `SkipsTo`              skipping from one place ends at another;
* `Graph.outcomeOf`      the outcome, given the result of the rule and the machine after it;
* `Outcome.Coherent`     the parts of an outcome fit together;
* `Outcome.Relaxes`      an outcome that allows more text beside one that does not;
* `outcomes_coherent`    every outcome is coherent, however the rule is asked for.
-/

namespace Packrat

/-! ## skipping to the end -/

section
variable {ignorables : List Pattern} {p q : Place}

/-- what is skipped is not empty -/
theorem skipOne?_lt (h : skipOne? ignorables p = some q) : p.offset < q.offset := by
  obtain ⟨pattern, -, hpattern⟩ := List.exists_of_findSome?_eq_some h
  split at hpattern
  · cases hpattern
  · split at hpattern
    · next hlt =>
      cases hpattern
      exact hlt
    · cases hpattern

theorem length_lt_of_skipOne? (h : skipOne? ignorables p = some q) :
    q.rest.length < p.rest.length := by
  have hlt := skipOne?_lt h
  obtain ⟨passed, hrest, hoffset⟩ := le_skipOne? h
  cases passed with
  | nil =>
    rw [byteLength_nil] at hoffset
    omega
  | cons c passed =>
    rw [hrest, List.length_append, List.length_cons]
    omega

theorem skipOne?_skipAlong (left : List Char) (h : p.rest.length ≤ left.length) :
    skipOne? ignorables (skipAlong ignorables left p) = none := by
  induction left generalizing p with
  | nil =>
    rw [skipAlong]
    cases hskip : skipOne? ignorables p with
    | none => rfl
    | some q =>
      have hshorter := length_lt_of_skipOne? hskip
      rw [List.length_nil] at h
      omega
  | cons c left ih =>
    rw [skipAlong]
    cases hskip : skipOne? ignorables p with
    | none => exact hskip
    | some q =>
      have hshorter := length_lt_of_skipOne? hskip
      rw [List.length_cons] at h
      exact ih (by omega)

/-- **Where skipping has ended, nothing more can be skipped.** -/
theorem skipOne?_skipAll (ignorables : List Pattern) (p : Place) :
    skipOne? ignorables (skipAll ignorables p) = none :=
  skipOne?_skipAlong p.rest (Nat.le_refl _)

/-- where nothing can be skipped, no ignorable pattern matches more than the empty text -/
theorem endAt?_of_skipOne? (h : skipOne? ignorables p = none) {pattern : Pattern}
    (hpattern : pattern ∈ ignorables) (hend : pattern.endAt? p = some q) : q.offset = p.offset := by
  have hnone := List.findSome?_eq_none_iff.mp h pattern hpattern
  rw [hend] at hnone
  have hle : p.offset ≤ q.offset := Place.offset_le (Pattern.le_endAt? hend)
  by_cases hlt : p.offset < q.offset
  · cases (if_pos hlt).symm.trans hnone
  · omega

/-- skipping from `p` ends at `q` -/
structure SkipsTo (ignorables : List Pattern) (p q : Place) : Prop where
  skips : Skips ignorables p q
  ends : skipOne? ignorables q = none

theorem skipsTo_skipAll (ignorables : List Pattern) (p : Place) :
    SkipsTo ignorables p (skipAll ignorables p) :=
  ⟨skips_skipAlong p.rest p, skipOne?_skipAll ignorables p⟩

/-- no text is left just at the end of the text -/
theorem Place.rest_eq_nil_iff {text : String} (h : Place.first text.toList ≤ p) :
    p.rest = [] ↔ p.offset = text.utf8ByteSize := by
  have hlimit : p.offset + byteLength p.rest = text.utf8ByteSize := Place.limit_of_le h
  constructor
  · intro hrest
    rw [hrest, byteLength_nil] at hlimit
    omega
  · intro hoffset
    cases hrest : p.rest with
    | nil => rfl
    | cons c rest =>
      have hpos := c.utf8Size_pos
      rw [hrest, byteLength_cons] at hlimit
      omega

/-- only ignorable text is left just if skipping comes to the end of the text -/
theorem Reader.atEnd_iff (reader : Reader) (ignorables : List Pattern) {text : String}
    (h : Place.first text.toList ≤ reader.place) :
    reader.atEnd ignorables = true ↔
      (skipAll ignorables reader.place).offset = text.utf8ByteSize := by
  rw [atEnd, List.isEmpty_iff]
  exact Place.rest_eq_nil_iff (Place.le_trans h (skipsTo_skipAll ignorables reader.place).skips.le)

/-- what follows is shown, if anything follows -/
theorem preview_ne_empty {rest : List Char} (h : rest ≠ []) : preview rest ≠ "" := by
  cases rest with
  | nil => exact absurd rfl h
  | cons c rest =>
    have hshown : ∃ d shown, previewChar c = d :: shown := by
      rw [previewChar]
      split
      · exact ⟨_, _, rfl⟩
      · exact ⟨_, _, rfl⟩
    obtain ⟨d, shown, hshown⟩ := hshown
    intro hempty
    have hlist := congrArg String.toList hempty
    rw [preview, previewLength, List.take_succ_cons, List.flatMap_cons, hshown] at hlist
    simp at hlist

end

/-! ## outcomes -/

section
variable {τ : Type}

/-- the outcome of parsing a text, given the result of the rule and the machine after it -/
def Graph.outcomeOf (g : Graph τ) (rule : Nat) (text : String) (options : Options)
    (result : Option (Fragment τ)) (m : Machine τ) : Outcome τ :=
  let seen := g.seenOf rule text options result m.reader
  ⟨seen.1, seen.2.1, seen.2.2, m.totals, m.events.reverse⟩

theorem Graph.run?_eq (g : Graph τ) (limit rule : Nat) (text : String) (options : Options) :
    g.run? limit rule text options =
      ((Machine.fresh (Reader.first text.toList) options.memoize).serve? g (g.ignorablesFor options)
        limit (.rule rule)).map fun x => g.outcomeOf rule text options x.1 x.2 := by
  show _ = ((Machine.first text.toList options.memoize).evaluateRule? g (g.ignorablesFor options)
    limit rule).map _
  rw [run?]
  cases (Machine.first text.toList options.memoize).evaluateRule? g (g.ignorablesFor options) limit
    rule <;> rfl

/-- the parts of the outcome of parsing a text fit together -/
structure Outcome.Coherent (text : String) (options : Options) (ignorables : List Pattern)
    (o : Outcome τ) : Prop where
  /-- the rule that was asked for exists -/
  known : ∀ name, o.result ≠ .error (.unknownRule name)
  /-- without a match nothing is consumed, and nothing can go on -/
  failed : ∀ name furthest shown, o.result = .error (.noMatch name furthest shown) →
    o.consumed = 0 ∧ o.trailing = false
  /-- the text goes on after the match, with something that cannot be skipped -/
  goesOn : ∀ position shown, o.result = .error (.trailingInput position shown) →
    options.allowTrailing = false ∧ o.trailing = true ∧ o.consumed ≤ position.offset ∧
      position.offset < text.utf8ByteSize ∧ shown ≠ "" ∧
      ∃ p : Place, p.Sound text ∧ p.offset = position.offset ∧
        ∀ pattern ∈ ignorables, ∀ stop, pattern.endAt? p = some stop → stop.offset = p.offset
  /-- there is a tree for a part of the text only if that is allowed -/
  allowed : ∀ tree, o.result = .ok tree → o.trailing = true → options.allowTrailing = true
  /-- after a match, nothing goes on just if skipping comes to the end of the text -/
  covers : (∀ name furthest shown, o.result ≠ .error (.noMatch name furthest shown)) →
    ∃ start stop : Place, start.Sound text ∧ start.offset = o.consumed ∧
      SkipsTo ignorables start stop ∧ (o.trailing = false ↔ stop.offset = text.utf8ByteSize)

/-- the second outcome is the first, but for an error about text that goes on: it gives way to the
tree of what was found -/
structure Outcome.Relaxes (found : Option (Fragment τ)) (strict free : Outcome τ) : Prop where
  consumed : free.consumed = strict.consumed
  trailing : free.trailing = strict.trailing
  counters : free.counters = strict.counters
  events : free.events = strict.events
  tree : ∀ position shown, strict.result = .error (.trailingInput position shown) →
    ∃ r, found = some r ∧ free.result = .ok r.tree
  same : (∀ position shown, strict.result ≠ .error (.trailingInput position shown)) →
    free.result = strict.result

variable {g : Graph τ}

theorem Machine.serve?_keeps {ignorables : List Pattern} {reader : Reader} {memoize : Bool}
    {limit : Nat} {call : Call} {result : Option (Fragment τ)} {m : Machine τ}
    (h : (fresh reader memoize).serve? g ignorables limit call = some (result, m)) :
    Keeps result reader m.reader := by
  obtain ⟨last, finished, hsteps, hend, htake⟩ := steps_of_serve? h
  have hfirst : Visits g ignorables (fresh reader memoize) [] (fresh reader memoize) := .first
  have hkeeps := request_keeps (fresh_idle reader memoize) hfirst.ledger_lawful hsteps hend
  rw [htake] at hkeeps
  exact hkeeps.2

/-- a match gives the tree, or an error if the text goes on and that is not allowed -/
theorem Graph.outcomeOf_some (g : Graph τ) (rule : Nat) (text : String) (options : Options)
    (r : Fragment τ) (m : Machine τ) :
    let o := g.outcomeOf rule text options (some r) m
    let offset := (skipAll (g.ignorablesFor options) m.reader.place).offset
    (o.result = .ok r.tree ∧ (o.trailing = true → options.allowTrailing = true)) ∨
      (o.result = .error (.trailingInput (positionOf text.toList offset)
        (previewAt text.toList offset)) ∧ o.trailing = true ∧ options.allowTrailing = false) := by
  intro o offset
  have hresult : o.result = if (o.trailing && !options.allowTrailing) = true then
      .error (.trailingInput (positionOf text.toList offset) (previewAt text.toList offset))
    else .ok r.tree := rfl
  rw [hresult]
  by_cases hgoes : (o.trailing && !options.allowTrailing) = true
  · obtain ⟨htrailing, hstrict⟩ := Bool.and_eq_true_iff.mp hgoes
    exact .inr ⟨if_pos hgoes, htrailing, by simpa using hstrict⟩
  · refine .inl ⟨if_neg hgoes, fun htrailing => ?_⟩
    simpa [htrailing] using hgoes

/-- where the text goes on after a match is shown at its place -/
theorem Reader.goes_on (reader : Reader) (ignorables : List Pattern) {text : String}
    (hreader : Place.first text.toList ≤ reader.place) (hgoes : reader.atEnd ignorables = false) :
    let stop := skipAll ignorables reader.place
    reader.offset ≤ stop.offset ∧ (positionOf text.toList stop.offset).offset = stop.offset ∧
      stop.offset < text.utf8ByteSize ∧ previewAt text.toList stop.offset ≠ "" ∧ stop.Sound text ∧
      ∀ pattern ∈ ignorables, ∀ q, pattern.endAt? stop = some q → q.offset = stop.offset := by
  intro stop
  have hskips := skipsTo_skipAll ignorables reader.place
  have hstop := Place.le_trans hreader hskips.skips.le
  have hsound := Place.sound_of_le hstop
  have hrest : stop.rest ≠ [] := by
    intro hnil
    have hend := (reader.atEnd_iff ignorables hreader).mpr ((Place.rest_eq_nil_iff hstop).mp hnil)
    rw [hgoes] at hend
    cases hend
  have hbefore : stop.offset ≠ text.utf8ByteSize := mt (Place.rest_eq_nil_iff hstop).mpr hrest
  refine ⟨Place.offset_le hskips.skips.le, ?_, Nat.lt_of_le_of_ne hsound.le hbefore, ?_, hsound,
    fun pattern hpattern q hq => endAt?_of_skipOne? hskips.ends hpattern hq⟩
  · obtain ⟨position, hposition, hoffset⟩ := hsound.position
    rw [positionOf, hposition]
    exact hoffset
  · rw [hsound.previewAt]
    exact preview_ne_empty hrest

/-- **A result and a reader that stands where the result allows make a coherent outcome.** -/
theorem Graph.outcomeOf_coherent (g : Graph τ) {rule : Nat} {text : String} {options : Options}
    {result : Option (Fragment τ)} {m : Machine τ}
    (hkeeps : Machine.Keeps result (Reader.first text.toList) m.reader) :
    (g.outcomeOf rule text options result m).Coherent text options (g.ignorablesFor options) := by
  cases result with
  | none =>
    have hplace : m.reader.place = Place.first text.toList := hkeeps.failed rfl
    refine ⟨nofun, fun _ _ _ _ => ⟨congrArg Place.offset hplace, rfl⟩, nofun, nofun, fun h => ?_⟩
    exact absurd rfl (h _ _ _)
  | some r =>
    have hplace : Place.first text.toList ≤ m.reader.place := hkeeps.matched rfl
    have hcovers : ∃ start stop : Place, start.Sound text ∧ start.offset = m.reader.offset ∧
        SkipsTo (g.ignorablesFor options) start stop ∧
        ((!m.reader.atEnd (g.ignorablesFor options)) = false ↔
          stop.offset = text.utf8ByteSize) := by
      refine ⟨m.reader.place, _, Place.sound_of_le hplace, rfl,
        skipsTo_skipAll (g.ignorablesFor options) m.reader.place, ?_⟩
      rw [← m.reader.atEnd_iff (g.ignorablesFor options) hplace, Bool.not_eq_false']
    rcases g.outcomeOf_some rule text options r m with
      ⟨hok, hallowed⟩ | ⟨herror, htrailing, hstrict⟩
    · refine ⟨?_, ?_, ?_, fun tree _ => hallowed, fun _ => hcovers⟩
      · rw [hok]
        exact nofun
      · rw [hok]
        exact nofun
      · rw [hok]
        exact nofun
    · refine ⟨?_, ?_, ?_, ?_, fun _ => hcovers⟩
      · rw [herror]
        exact nofun
      · rw [herror]
        exact nofun
      · intro position shown hgoes
        rw [herror] at hgoes
        cases hgoes
        have hend : m.reader.atEnd (g.ignorablesFor options) = false :=
          (Bool.not_eq_true' _).mp htrailing
        obtain ⟨hle, hposition, hlt, hshown, hsound, hpatterns⟩ := m.reader.goes_on _ hplace hend
        rw [hposition]
        exact ⟨hstrict, htrailing, hle, hlt, hshown, _, hsound, rfl, hpatterns⟩
      · rw [herror]
        exact nofun

/-- whether more text is allowed matters only where the text goes on after a match -/
theorem Graph.outcomeOf_relaxes (g : Graph τ) (rule : Nat) (text : String) (options : Options)
    (result : Option (Fragment τ)) (m : Machine τ) :
    Outcome.Relaxes result
      (g.outcomeOf rule text { options with allowTrailing := false } result m)
      (g.outcomeOf rule text { options with allowTrailing := true } result m) := by
  cases result with
  | none => exact ⟨rfl, rfl, rfl, rfl, nofun, fun _ => rfl⟩
  | some r =>
    have hfree : (g.outcomeOf rule text { options with allowTrailing := true } (some r) m).result =
        .ok r.tree := by
      rcases g.outcomeOf_some rule text { options with allowTrailing := true } r m with
        ⟨hok, -⟩ | ⟨-, -, hstrict⟩
      · exact hok
      · cases hstrict
    refine ⟨rfl, rfl, rfl, rfl, fun _ _ _ => ⟨r, rfl, hfree⟩, fun hother => ?_⟩
    rcases g.outcomeOf_some rule text { options with allowTrailing := false } r m with
      ⟨hok, -⟩ | ⟨herror, -, -⟩
    · exact hfree.trans hok.symm
    · exact absurd herror (hother _ _)

/-- a name has a number just if a rule of that name is declared -/
theorem Grammar.compile_ruleIndex?_eq_none (grammar : Grammar τ) {name : String} :
    grammar.compile.ruleIndex? name = none ↔ ∀ rule ∈ grammar.rules, rule.name ≠ name := by
  rw [← grammar.rule?_eq_none]
  constructor
  · intro hnone
    refine grammar.compile_stands.rule_eq_none fun i hi => ?_
    rw [hnone] at hi
    cases hi
  · exact grammar.compile_stands.undefined

theorem Graph.parse?_eq {i : Nat} {name : String} (h : g.ruleIndex? name = some i) (limit : Nat)
    (text : String) (options : Options) :
    g.parse? limit name text options = (g.run? limit i text options).map Outcome.result ∧
      (g.inspect? limit name text options).map Inspection.outcome =
        g.run? limit i text options := by
  constructor
  · rw [parse?, h]
  · rw [inspect?, h, Option.map_map]
    exact congrFun Option.map_id (g.run? limit i text options)

/-- **The parts of an outcome fit together, however the rule is asked for.**  A name without a rule
is reported as unknown.  For any other, parsing gives the result of the run, inspecting it gives the
whole outcome; this is coherent; and allowing more text changes nothing but that an error about text
that goes on gives way to the tree of the match. -/
theorem outcomes_coherent (grammar : Grammar τ) (name text : String) (options : Options) :
    ((∀ rule ∈ grammar.rules, rule.name ≠ name) → ∀ limit,
      grammar.compile.parse? limit name text options = some (.error (.unknownRule name)) ∧
      (grammar.compile.inspect? limit name text options).map (·.outcome.result) =
        some (.error (.unknownRule name))) ∧
    ∀ rule ∈ grammar.rules, rule.name = name → ∃ i, grammar.compile.ruleIndex? name = some i ∧
      ∀ limit,
        grammar.compile.parse? limit name text options =
          (grammar.compile.run? limit i text options).map Outcome.result ∧
        (grammar.compile.inspect? limit name text options).map Inspection.outcome =
          grammar.compile.run? limit i text options ∧
        (∀ o, grammar.compile.run? limit i text options = some o →
          o.Coherent text options (grammar.ignorablesFor options)) ∧
        Option.Rel (fun strict free => ∃ result m,
            (Machine.first text.toList options.memoize).evaluateRule? grammar.compile
              (grammar.ignorablesFor options) limit i = some (result, m) ∧
            Outcome.Relaxes result strict free)
          (grammar.compile.run? limit i text { options with allowTrailing := false })
          (grammar.compile.run? limit i text { options with allowTrailing := true }) := by
  constructor
  · intro hnone limit
    rw [← grammar.compile_ruleIndex?_eq_none] at hnone
    rw [Graph.parse?, Graph.inspect?, hnone]
    exact ⟨rfl, rfl⟩
  · intro rule hrule hname
    have hsome : grammar.compile.ruleIndex? name ≠ none :=
      fun hnone => grammar.compile_ruleIndex?_eq_none.mp hnone rule hrule hname
    obtain ⟨i, hi⟩ := Option.ne_none_iff_exists'.mp hsome
    refine ⟨i, hi, fun limit => ?_⟩
    obtain ⟨hparse, hinspect⟩ := Graph.parse?_eq hi limit text options
    refine ⟨hparse, hinspect, fun o hrun => ?_, ?_⟩
    · rw [Graph.run?_eq] at hrun
      obtain ⟨⟨result, m⟩, hserve, rfl⟩ := Option.map_eq_some_iff.mp hrun
      exact grammar.compile.outcomeOf_coherent (Machine.serve?_keeps hserve)
    · rw [Graph.run?_eq, Graph.run?_eq]
      show Option.Rel _
        (((Machine.first text.toList options.memoize).evaluateRule? grammar.compile
          (grammar.ignorablesFor options) limit i).map _)
        (((Machine.first text.toList options.memoize).evaluateRule? grammar.compile
          (grammar.ignorablesFor options) limit i).map _)
      cases hserve : (Machine.first text.toList options.memoize).evaluateRule? grammar.compile
          (grammar.ignorablesFor options) limit i with
      | none => exact .none
      | some x =>
        exact .some ⟨x.1, x.2, rfl, grammar.compile.outcomeOf_relaxes i text options x.1 x.2⟩

end

namespace Accents

/-- after a match and a blank the text goes on, and the position shown is that after the blank -/
theorem outcomes_coherent_going_on :
    ∃ o free found, grammar.compile.run? 100 0 " é! ?" {} = some o ∧
      o.result = .error (.trailingInput ⟨5, 1, 5⟩ "?") ∧ o.trailing = true ∧ o.consumed ≤ 5 ∧
      grammar.compile.parse? 100 "a" " é! ?" {} = some (.error (.trailingInput ⟨5, 1, 5⟩ "?")) ∧
      grammar.compile.run? 100 0 " é! ?" { allowTrailing := true } = some free ∧
      free.consumed = o.consumed ∧ free.result = .ok (Fragment.tree found) := by
  have hrule : ∃ rule ∈ grammar.rules, rule.name = "a" := ⟨_, List.mem_cons_self, rfl⟩
  obtain ⟨rule, hmem, hname⟩ := hrule
  have hindex : grammar.compile.ruleIndex? "a" = some 0 := by decide +kernel
  have hview : ((grammar.compile.run? 100 0 " é! ?" {}).bind fun o => match o.result with
      | .ok _ => none
      | .error e => some e) = some (.trailingInput ⟨5, 1, 5⟩ "?") := by
    decide +kernel
  obtain ⟨o, ho, herror⟩ := Option.bind_eq_some_iff.mp hview
  have hresult : o.result = .error (.trailingInput ⟨5, 1, 5⟩ "?") := by
    cases hcase : o.result with
    | ok t =>
      rw [hcase] at herror
      cases herror
    | error e =>
      rw [hcase] at herror
      cases herror
      rfl
  obtain ⟨i, hi, h⟩ := (outcomes_coherent grammar "a" " é! ?" {}).2 rule hmem hname
  cases hindex.symm.trans hi
  obtain ⟨hparse, -, hcoherent, hrelaxes⟩ := h 100
  obtain ⟨-, htrailing, hconsumed, -⟩ := (hcoherent o ho).goesOn _ _ hresult
  rw [ho] at hparse hrelaxes
  cases hfree : grammar.compile.run? 100 0 " é! ?" { allowTrailing := true } with
  | none =>
    rw [hfree] at hrelaxes
    cases hrelaxes
  | some free =>
    rw [hfree] at hrelaxes
    cases hrelaxes with
    | some h =>
      obtain ⟨result, m, -, hboth⟩ := h
      obtain ⟨found, -, htree⟩ := hboth.tree _ _ hresult
      exact ⟨o, free, found, ho, hresult, htrailing, hconsumed,
        hparse.trans (congrArg some hresult), rfl, hboth.consumed, htree⟩

end Accents

end Packrat
