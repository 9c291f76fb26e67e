import Packrat.Graph.Compile
import Packrat.Proofs.Free
import Packrat.Proofs.Session

/-!
# Parsing by recursion

What a parser reads is said once more, by recursion over the graph and without any stack.

* `Parses`         a parser reads from one reader to another, with that result;
* `ParsesAll`      so do parsers one after the other; a failure ends them;
* `ParsesFirst`    so does the first of several that does not fail, all tried at the same place;
* `ParsesRounds`   so does a parser again and again, with the trees and the number of its rounds;
* `Parses.settles`, `Settles.parses`   without a memory, moves settle as derivations say;
* `evaluate?_iff_parses`   a machine without a memory has a result exactly if there is a derivation.
-/

namespace Packrat

section
variable {τ : Type} (g : Graph τ) (ignorables : List Pattern)

mutual

/-- the parser with that number reads from the first reader to the second, with that result -/
inductive Parses : Nat → Reader → Option (Fragment τ) → Reader → Prop
  | absent {node : Nat} {r : Reader} : g.nodes[node]? = none → Parses node r none r
  | leaf {node : Nat} {source : String} {pattern : Pattern} {role : Role τ} {r r' : Reader}
      {found : Match} : g.nodes[node]? = some (.leaf source (some pattern) role) →
      r.look? ignorables pattern = some (found, r') → Parses node r (some (role.apply found)) r'
  | miss {node : Nat} {source : String} {pattern : Pattern} {role : Role τ} {r : Reader} :
      g.nodes[node]? = some (.leaf source (some pattern) role) →
      r.look? ignorables pattern = none → Parses node r none r
  /-- without a pattern, nothing matches -/
  | invalid {node : Nat} {source : String} {role : Role τ} {r : Reader} :
      g.nodes[node]? = some (.leaf source none role) → Parses node r none r
  | sequence {node : Nat} {parts : List Nat} {shape : Shape τ} {r r' : Reader}
      {trees : List (Tree τ)} : g.nodes[node]? = some (.sequence parts shape) →
      ParsesAll parts r (some trees) r' → Parses node r (some (shape.apply trees)) r'
  /-- a sequence that fails goes back to where it began -/
  | broken {node : Nat} {parts : List Nat} {shape : Shape τ} {r r' : Reader} :
      g.nodes[node]? = some (.sequence parts shape) → ParsesAll parts r none r' →
      Parses node r none { r' with place := r.place }
  | alternative {node : Nat} {choices : List Nat} {shape : Shape τ} {r r' : Reader}
      {result : Option (Fragment τ)} : g.nodes[node]? = some (.alternative choices shape) →
      ParsesFirst choices r result r' → Parses node r (result.map shape.applyOne) r'
  | repetition {node inner count : Nat} (bound : Bound) (shape : Shape τ) {r r' : Reader}
      {trees : List (Tree τ)} : g.nodes[node]? = some (.repetition inner bound shape) →
      ParsesRounds inner r trees count r' → bound.least ≤ count →
      Parses node r (some (shape.apply trees)) r'
  /-- and so does a repetition with too few rounds -/
  | tooFew {node inner count : Nat} (bound : Bound) (shape : Shape τ) {r r' : Reader}
      {trees : List (Tree τ)} : g.nodes[node]? = some (.repetition inner bound shape) →
      ParsesRounds inner r trees count r' → count < bound.least →
      Parses node r none { r' with place := r.place }
  | optional {node inner : Nat} {r r' : Reader} (result : Option (Fragment τ)) :
      g.nodes[node]? = some (.optional inner) → Parses inner r result r' →
      Parses node r (some (result.getD .nothing)) r'
  | reference {node root : Nat} (rule : Nat) {name : String} {r r' : Reader}
      {result : Option (Fragment τ)} : g.nodes[node]? = some (.reference name (some rule)) →
      g.root? rule = some root → Parses root r result r' → Parses node r result r'
  | rootless {node rule : Nat} {name : String} {r : Reader} :
      g.nodes[node]? = some (.reference name (some rule)) → g.root? rule = none →
      Parses node r none r
  | undefined {node : Nat} {name : String} {r : Reader} :
      g.nodes[node]? = some (.reference name none) → Parses node r none r

/-- the parsers read one after the other; there are no trees if one of them fails -/
inductive ParsesAll : List Nat → Reader → Option (List (Tree τ)) → Reader → Prop
  | nil {r : Reader} : ParsesAll [] r (some []) r
  | fail {part : Nat} {parts : List Nat} {r r' : Reader} : Parses part r none r' →
      ParsesAll (part :: parts) r none r'
  | next {part : Nat} {parts : List Nat} {r r₁ r' : Reader} (found : Fragment τ)
      (trees : Option (List (Tree τ))) : Parses part r (some found) r₁ →
      ParsesAll parts r₁ trees r' →
      ParsesAll (part :: parts) r (trees.map (found.collected ++ ·)) r'

/-- the first of the parsers that does not fail reads, each of them at the same place -/
inductive ParsesFirst : List Nat → Reader → Option (Fragment τ) → Reader → Prop
  | nil {r : Reader} : ParsesFirst [] r none r
  | hit {choice : Nat} {choices : List Nat} {r r' : Reader} {found : Fragment τ} :
      Parses choice r (some found) r' → ParsesFirst (choice :: choices) r (some found) r'
  | next {choice : Nat} {choices : List Nat} {r r₁ r' : Reader} {result : Option (Fragment τ)} :
      Parses choice r none r₁ → ParsesFirst choices { r₁ with place := r.place } result r' →
      ParsesFirst (choice :: choices) r result r'

/-- the parser reads until it fails or does not move on; what it finds then still counts -/
inductive ParsesRounds : Nat → Reader → List (Tree τ) → Nat → Reader → Prop
  | stop {inner : Nat} {r r' : Reader} : Parses inner r none r' → ParsesRounds inner r [] 0 r'
  | stall {inner : Nat} {r r' : Reader} (found : Fragment τ) : Parses inner r (some found) r' →
      r'.offset ≤ r.offset → ParsesRounds inner r found.collected 1 r'
  | round {inner count : Nat} {r r₁ r' : Reader} (found : Fragment τ) {trees : List (Tree τ)} :
      Parses inner r (some found) r₁ → r.offset < r₁.offset →
      ParsesRounds inner r₁ trees count r' →
      ParsesRounds inner r (found.collected ++ trees) (count + 1) r'

end

end

/-! ## from derivations to moves -/

section
variable {τ : Type} {g : Graph τ} {ignorables : List Pattern}

/-- the result of a repetition with that many rounds -/
def roundsResult (bound : Bound) (shape : Shape τ) (count : Nat) (trees : List (Tree τ)) :
    Option (Fragment τ) :=
  if count < bound.least then none else some (shape.apply trees)

/-- and where it ends, if it began at `start` and its rounds end with `r` -/
def roundsEnd (bound : Bound) (count : Nat) (start : Place) (r : Reader) : Reader :=
  if count < bound.least then r.moveTo start else r

theorem endRepetition_eq_rounds (l : Ledger τ) (bound : Bound) (shape : Shape τ) (count : Nat)
    (start : Place) (collected : List (Tree τ)) :
    ∃ l' : Ledger τ, l'.reader = roundsEnd bound count start l.reader ∧ l'.memo = l.memo ∧
      l.endRepetition bound shape count start collected =
        (.answer (roundsResult bound shape count collected.reverse), l') := by
  rw [Ledger.endRepetition, roundsResult, roundsEnd]
  split
  · exact ⟨l.moveTo start, rfl, rfl, rfl⟩
  · exact ⟨l, rfl, rfl, rfl⟩

theorem readsTo_endRepetition {l : Ledger τ} (hl : l.memo = none) (bound : Bound) (shape : Shape τ)
    (count : Nat) (start : Place) (collected : List (Tree τ)) :
    ReadsTo g ignorables (l.endRepetition bound shape count start collected)
      (roundsResult bound shape count collected.reverse) (roundsEnd bound count start l.reader) := by
  obtain ⟨l', hr, hm, heq⟩ := endRepetition_eq_rounds l bound shape count start collected
  rw [heq, ← hr]
  exact readsTo_answer (hm.trans hl) _

mutual

/-- **What a derivation says, a run without a memory does.** -/
theorem Parses.reads {node : Nat} {r r' : Reader} {result : Option (Fragment τ)} {l : Ledger τ}
    (h : Parses g ignorables node r result r') (hl : l.memo = none) (hr : l.reader = r) :
    ReadsTo g ignorables (l.start g ignorables node) result r' := by
  match h with
  | .absent hnode =>
    rw [Ledger.start, hnode, ← hr]
    exact readsTo_answer hl none
  | .leaf hnode hlook =>
    rw [Ledger.start, hnode]
    show ReadsTo g ignorables (l.readLeaf ignorables _ _) _ _
    rw [Ledger.readLeaf, hr, hlook]
    exact ⟨0, _, .answer _ _, rfl, hl⟩
  | .miss hnode hlook =>
    rw [Ledger.start, hnode]
    show ReadsTo g ignorables (l.readLeaf ignorables _ _) _ _
    rw [Ledger.readLeaf, hr, hlook, ← hr]
    exact ⟨0, _, .answer _ _, rfl, hl⟩
  | .invalid hnode =>
    rw [Ledger.start, hnode, ← hr]
    exact readsTo_answer hl none
  | .sequence hnode hall =>
    rw [Ledger.start_sequence hnode]
    exact hall.reads hl hr _ l.reader.place []
  | .broken hnode hall =>
    rw [Ledger.start_sequence hnode, ← hr]
    exact hall.reads hl hr _ l.reader.place []
  | .alternative hnode hfirst =>
    rw [Ledger.start_alternative hnode, hr]
    exact hfirst.reads hl hr _
  | .repetition bound shape hnode hrounds hleast =>
    have hread := hrounds.reads hl hr bound shape 0 l.reader.place []
    rw [roundsResult, roundsEnd, if_neg (by omega), if_neg (by omega)] at hread
    rw [Ledger.start, hnode]
    exact hread
  | .tooFew bound shape hnode hrounds hleast =>
    have hread := hrounds.reads hl hr bound shape 0 l.reader.place []
    rw [roundsResult, roundsEnd, if_pos (by omega), if_pos (by omega), hr] at hread
    rw [Ledger.start, hnode]
    exact hr ▸ hread
  | .optional part hnode hinner =>
    rw [Ledger.start, hnode]
    refine readsTo_wait (hinner.reads hl hr) fun l₁ hr₁ hl₁ => ?_
    subst hr₁
    cases part with
    | none => exact readsTo_answer hl₁ _
    | some found => exact readsTo_answer hl₁ _
  | .reference rule hnode hroot hinner =>
    rw [Ledger.start, hnode]
    show ReadsTo g ignorables (l.enter g rule) _ _
    rw [Ledger.enter_absent hroot (Ledger.known?_eq_none hl _)]
    have hread := hinner.reads (Ledger.begun_memo_none hl rule)
      ((Ledger.begun_reader l rule).trans hr)
    refine readsTo_wait hread fun l₁ hr₁ hl₁ => ?_
    subst hr₁
    exact readsTo_answer (Ledger.closed_memo_none hl₁ _ _ _) _
  | .rootless hnode hroot =>
    rw [Ledger.start, hnode, ← hr]
    show ReadsTo g ignorables (l.enter g _) _ _
    rw [Ledger.enter_undefined hroot]
    exact readsTo_answer hl none
  | .undefined hnode =>
    rw [Ledger.start, hnode, ← hr]
    exact ⟨0, _, .answer _ _, rfl, hl⟩

theorem ParsesAll.reads {parts : List Nat} {r r' : Reader} {trees : Option (List (Tree τ))}
    {l : Ledger τ} (h : ParsesAll g ignorables parts r trees r') (hl : l.memo = none)
    (hr : l.reader = r) (shape : Shape τ) (start : Place) (collected : List (Tree τ)) :
    ReadsTo g ignorables (l.proceed parts shape start collected)
      (trees.map fun ts => shape.apply (collected.reverse ++ ts))
      (if trees.isSome then r' else r'.moveTo start) := by
  match h with
  | .nil =>
    rw [← hr]
    show ReadsTo g ignorables (.answer _, l) (some (shape.apply (collected.reverse ++ []))) _
    rw [List.append_nil]
    exact readsTo_answer hl _
  | .fail hpart =>
    refine readsTo_wait (hpart.reads hl hr) fun l₁ hr₁ hl₁ => ?_
    subst hr₁
    exact ⟨0, _, .answer _ _, rfl, hl₁⟩
  | .next found trees hpart hall =>
    refine readsTo_wait (hpart.reads hl hr) fun l₁ hr₁ hl₁ => ?_
    rw [Ledger.resume_sequence]
    have hread := hall.reads hl₁ hr₁ shape start (found.collected.reverse ++ collected)
    rw [List.reverse_append, List.reverse_reverse] at hread
    cases trees with
    | none => exact hread
    | some ts =>
      show ReadsTo g ignorables _ (some (shape.apply (collected.reverse ++ (found.collected ++ ts)))) _
      rw [← List.append_assoc]
      exact hread

theorem ParsesFirst.reads {choices : List Nat} {r r' : Reader} {result : Option (Fragment τ)}
    {l : Ledger τ} (h : ParsesFirst g ignorables choices r result r') (hl : l.memo = none)
    (hr : l.reader = r) (shape : Shape τ) :
    ReadsTo g ignorables (l.choose choices shape r.place) (result.map shape.applyOne) r' := by
  match h with
  | .nil =>
    rw [← hr]
    exact readsTo_answer hl none
  | .hit hchoice =>
    refine readsTo_wait (hchoice.reads hl hr) fun l₁ hr₁ hl₁ => ?_
    subst hr₁
    exact readsTo_answer hl₁ _
  | .next hchoice hfirst =>
    refine readsTo_wait (hchoice.reads hl hr) fun l₁ hr₁ hl₁ => ?_
    rw [Ledger.resume_alternative]
    exact hfirst.reads (l := l₁.moveTo r.place) hl₁ (congrArg (·.moveTo r.place) hr₁) shape

theorem ParsesRounds.reads {inner count : Nat} {r r' : Reader} {trees : List (Tree τ)}
    {l : Ledger τ} (h : ParsesRounds g ignorables inner r trees count r') (hl : l.memo = none)
    (hr : l.reader = r) (bound : Bound) (shape : Shape τ) (before : Nat) (start : Place)
    (collected : List (Tree τ)) :
    ReadsTo g ignorables
      (.wait (.repetition inner bound shape before start l.reader.place collected) inner, l)
      (roundsResult bound shape (before + count) (collected.reverse ++ trees))
      (roundsEnd bound (before + count) start r') := by
  match h with
  | .stop hinner =>
    refine readsTo_wait (hinner.reads hl hr) fun l₁ hr₁ hl₁ => ?_
    subst hr₁
    rw [List.append_nil]
    exact readsTo_endRepetition hl₁ bound shape before start collected
  | .stall found hinner hstill =>
    refine readsTo_wait (hinner.reads hl hr) fun l₁ hr₁ hl₁ => ?_
    subst hr₁
    subst hr
    rw [Ledger.resume_still hstill]
    have hread : ReadsTo g ignorables _ _ _ := readsTo_endRepetition
      (l := l₁.stalled l.reader.place) hl₁ bound shape (before + 1) start
      (found.collected.reverse ++ collected)
    rw [List.reverse_append, List.reverse_reverse] at hread
    exact hread
  | .round found hinner hmoved hrounds =>
    refine readsTo_wait (hinner.reads hl hr) fun l₁ hr₁ hl₁ => ?_
    have hread := hrounds.reads hl₁ hr₁ bound shape (before + 1) start
      (found.collected.reverse ++ collected)
    subst hr₁
    subst hr
    rw [Ledger.resume_moved hmoved]
    rw [List.reverse_append, List.reverse_reverse, List.append_assoc, Nat.add_assoc before,
      Nat.add_comm 1] at hread
    exact hread

end

/-! ## from moves to derivations -/

/-- runs without a memory of fewer than `k` waits are derived -/
def DerivedBelow (g : Graph τ) (ignorables : List Pattern) (k : Nat) : Prop :=
  ∀ {i : Nat}, i < k → ∀ {l l' : Ledger τ} {node : Nat} {result : Option (Fragment τ)},
    l.memo = none → Settles g ignorables i (l.start g ignorables node) result l' →
    Parses g ignorables node l.reader result l'.reader

variable {k i : Nat} {l l' : Ledger τ} {result : Option (Fragment τ)} {shape : Shape τ}

theorem DerivedBelow.parsesAll (hk : DerivedBelow g ignorables k) {parts : List Nat}
    {start : Place} {collected : List (Tree τ)} (hi : i ≤ k) (hl : l.memo = none)
    (h : Settles g ignorables i (l.proceed parts shape start collected) result l') :
    ∃ trees r', ParsesAll g ignorables parts l.reader trees r' ∧
      result = trees.map (fun ts => shape.apply (collected.reverse ++ ts)) ∧
      l'.reader = if trees.isSome then r' else r'.moveTo start := by
  induction parts generalizing i l collected with
  | nil =>
    obtain ⟨-, rfl, rfl⟩ := h.answer_inv
    refine ⟨some [], l'.reader, .nil, ?_, rfl⟩
    show _ = some (shape.apply (collected.reverse ++ []))
    rw [List.append_nil]
  | cons part parts ih =>
    obtain ⟨i₁, j, found, l₁, h₁, h₂, rfl⟩ := h.wait_inv
    have hpart := hk (by omega) hl h₁
    cases found with
    | none =>
      obtain ⟨-, rfl, rfl⟩ := h₂.answer_inv
      exact ⟨none, l₁.reader, .fail hpart, rfl, rfl⟩
    | some found =>
      rw [Ledger.resume_sequence] at h₂
      obtain ⟨trees, r', hall, hresult, hreader⟩ := ih (by omega) (h₁.forgetful hl) h₂
      refine ⟨trees.map (found.collected ++ ·), r', .next found trees hpart hall, ?_, ?_⟩
      · rw [hresult, Option.map_map, List.reverse_append, List.reverse_reverse]
        congr 1
        funext ts
        rw [List.append_assoc]
        rfl
      · rw [hreader, Option.isSome_map]

theorem DerivedBelow.parsesFirst (hk : DerivedBelow g ignorables k) {choices : List Nat}
    {start : Place} (hstart : l.reader.place = start) (hi : i ≤ k) (hl : l.memo = none)
    (h : Settles g ignorables i (l.choose choices shape start) result l') :
    ∃ found, ParsesFirst g ignorables choices l.reader found l'.reader ∧
      result = found.map shape.applyOne := by
  induction choices generalizing i l with
  | nil =>
    obtain ⟨-, rfl, rfl⟩ := h.answer_inv
    exact ⟨none, .nil, rfl⟩
  | cons choice choices ih =>
    obtain ⟨i₁, j, found, l₁, h₁, h₂, rfl⟩ := h.wait_inv
    have hchoice := hk (by omega) hl h₁
    cases found with
    | none =>
      rw [Ledger.resume_alternative] at h₂
      obtain ⟨found, hfirst, hresult⟩ :=
        ih (l := l₁.moveTo start) rfl (by omega) (h₁.forgetful hl) h₂
      refine ⟨found, .next hchoice ?_, hresult⟩
      rw [hstart]
      exact hfirst
    | some found =>
      obtain ⟨-, rfl, rfl⟩ := h₂.answer_inv
      exact ⟨some found, .hit hchoice, rfl⟩

theorem DerivedBelow.parsesRounds (hk : DerivedBelow g ignorables k) {inner before : Nat}
    {bound : Bound} {start : Place} {collected : List (Tree τ)} (hi : i ≤ k) (hl : l.memo = none)
    (h : Settles g ignorables i
      (.wait (.repetition inner bound shape before start l.reader.place collected) inner, l)
      result l') :
    ∃ trees count r', ParsesRounds g ignorables inner l.reader trees count r' ∧
      result = roundsResult bound shape (before + count) (collected.reverse ++ trees) ∧
      l'.reader = roundsEnd bound (before + count) start r' := by
  induction i using Nat.strongRecOn generalizing l before collected with
  | ind i ih =>
    obtain ⟨i₁, j, found, l₁, h₁, h₂, rfl⟩ := h.wait_inv
    have hinner := hk (by omega) hl h₁
    cases found with
    | none =>
      obtain ⟨l₂, hr, -, heq⟩ := endRepetition_eq_rounds l₁ bound shape before start collected
      have h₂ : Settles g ignorables j (l₁.endRepetition bound shape before start collected) result
          l' := h₂
      rw [heq] at h₂
      obtain ⟨-, rfl, rfl⟩ := h₂.answer_inv
      refine ⟨[], 0, l₁.reader, .stop hinner, ?_, hr⟩
      rw [List.append_nil]
      rfl
    | some found =>
      by_cases hmoved : l.reader.offset < l₁.reader.offset
      · rw [Ledger.resume_moved hmoved] at h₂
        obtain ⟨trees, count, r', hrounds, hresult, hreader⟩ :=
          ih j (by omega) (by omega) (h₁.forgetful hl) h₂
        refine ⟨found.collected ++ trees, count + 1, r', .round found hinner hmoved hrounds, ?_, ?_⟩
        · rw [hresult, List.reverse_append, List.reverse_reverse, List.append_assoc,
            Nat.add_assoc before, Nat.add_comm 1]
        · rw [hreader, Nat.add_assoc before, Nat.add_comm 1]
      · rw [Ledger.resume_still (Nat.not_lt.mp hmoved)] at h₂
        obtain ⟨l₂, hr, -, heq⟩ := endRepetition_eq_rounds (l₁.stalled l.reader.place) bound shape
          (before + 1) start (found.collected.reverse ++ collected)
        rw [heq] at h₂
        obtain ⟨-, rfl, rfl⟩ := h₂.answer_inv
        refine ⟨found.collected, 1, l₁.reader, .stall found hinner (Nat.not_lt.mp hmoved), ?_, hr⟩
        rw [List.reverse_append, List.reverse_reverse]

/-- **What a run without a memory does, a derivation says.** -/
theorem Settles.parses {node : Nat} (hl : l.memo = none)
    (h : Settles g ignorables k (l.start g ignorables node) result l') :
    Parses g ignorables node l.reader result l'.reader := by
  induction k using Nat.strongRecOn generalizing l l' node result with
  | ind k ih =>
    have hk : DerivedBelow g ignorables k := fun hi _ _ _ _ hl h => ih _ hi hl h
    cases hnode : g.nodes[node]? with
    | none =>
      rw [Ledger.start, hnode] at h
      obtain ⟨-, rfl, rfl⟩ := h.answer_inv
      exact .absent hnode
    | some found =>
      cases found with
      | sequence parts shape =>
        rw [Ledger.start_sequence hnode] at h
        obtain ⟨trees, r', hall, rfl, hreader⟩ := hk.parsesAll (Nat.le_refl k) hl h
        cases trees with
        | none => exact hreader ▸ .broken hnode hall
        | some trees => exact hreader ▸ .sequence hnode hall
      | alternative choices shape =>
        rw [Ledger.start_alternative hnode] at h
        obtain ⟨found, hfirst, rfl⟩ := hk.parsesFirst rfl (Nat.le_refl k) hl h
        exact .alternative hnode hfirst
      | repetition inner bound shape =>
        rw [Ledger.start, hnode] at h
        obtain ⟨trees, count, r', hrounds, rfl, hreader⟩ := hk.parsesRounds (Nat.le_refl k) hl h
        rw [hreader, roundsResult, roundsEnd]
        split
        · exact .tooFew bound shape hnode hrounds (by omega)
        · exact .repetition bound shape hnode hrounds (by omega)
      | optional inner =>
        rw [Ledger.start, hnode] at h
        obtain ⟨i, j, part, l₁, h₁, h₂, rfl⟩ := h.wait_inv
        have hinner := hk (by omega) hl h₁
        cases part with
        | none =>
          obtain ⟨-, rfl, rfl⟩ := h₂.answer_inv
          exact .optional none hnode hinner
        | some part =>
          obtain ⟨-, rfl, rfl⟩ := h₂.answer_inv
          exact .optional (some part) hnode hinner
      | leaf source pattern role =>
        rw [Ledger.start, hnode] at h
        cases pattern with
        | none =>
          obtain ⟨-, rfl, rfl⟩ := h.answer_inv
          exact .invalid hnode
        | some pattern =>
          have h : Settles g ignorables k (l.readLeaf ignorables pattern role) result l' := h
          cases hlook : l.reader.look? ignorables pattern with
          | none =>
            rw [Ledger.readLeaf, hlook] at h
            obtain ⟨-, rfl, rfl⟩ := h.answer_inv
            exact .miss hnode hlook
          | some found =>
            rw [Ledger.readLeaf, hlook] at h
            obtain ⟨-, rfl, rfl⟩ := h.answer_inv
            exact .leaf hnode hlook
      | reference name rule =>
        rw [Ledger.start, hnode] at h
        cases rule with
        | none =>
          obtain ⟨-, rfl, rfl⟩ := h.answer_inv
          exact .undefined hnode
        | some rule =>
          have h : Settles g ignorables k (l.enter g rule) result l' := h
          cases hroot : g.root? rule with
          | none =>
            rw [Ledger.enter_undefined hroot] at h
            obtain ⟨-, rfl, rfl⟩ := h.answer_inv
            exact .rootless hnode hroot
          | some root =>
            rw [Ledger.enter_absent hroot (Ledger.known?_eq_none hl _)] at h
            obtain ⟨i, l₁, h₁, rfl, rfl⟩ := h.rule_inv
            have hinner := hk (by omega) (Ledger.begun_memo_none hl rule) h₁
            rw [Ledger.begun_reader] at hinner
            exact .reference rule hnode hroot hinner

/-- **A machine without a memory comes to a result exactly if there is a derivation of it**, and its
reader stands then where the derivation ends. -/
theorem evaluate?_iff_parses (g : Graph τ) (ignorables : List Pattern) (node : Nat)
    (reader reader' : Reader) (result : Option (Fragment τ)) :
    (∃ limit m, (Machine.fresh reader false).evaluate? g ignorables limit node = some (result, m) ∧
        m.reader = reader') ↔
      Parses g ignorables node reader result reader' := by
  have hidle : (Machine.fresh reader false : Machine τ).Idle := Machine.fresh_idle reader false
  constructor
  · rintro ⟨limit, m, h, rfl⟩
    have hserve : (Machine.fresh reader false).serve? g ignorables limit (.parser node) =
      some (result, m) := h
    obtain ⟨-, k, hk⟩ := Machine.settles_of_serve? hidle hserve
    exact hk.parses rfl
  · intro h
    obtain ⟨k, l, hk, hr, -⟩ := h.reads (l := (Machine.fresh reader false).ledger) rfl rfl
    have hbegin : Settles g ignorables k
        ((Machine.fresh reader false).ledger.begin g ignorables (.parser node)) result l := hk
    obtain ⟨m, -, rfl, hserve⟩ := Machine.serve?_of_settles hidle hbegin
    exact ⟨2 * k + 2, m, hserve _ (by omega), hr⟩

end

namespace Retry

/-- `top ::= "a" "b" | "a" "c"` -/
def grammar : Grammar Unit :=
  Grammar.empty.declare
    (({ name := "top" } : Rule.Draft Unit).hide "a" |>.hide "b" |>.or |>.hide "a" |>.hide "c")

/-- the second clause begins where the first one did; if both fail, the reader has not moved, though
the first character was read -/
theorem evaluate?_iff_parses_of_retry :
    (∃ found reader, Parses grammar.compile [] 6 (Reader.first "ac".toList) (some found) reader ∧
      reader.offset = 2) ∧
    ∃ reader, Parses grammar.compile [] 6 (Reader.first "ad".toList) none reader ∧
      reader.offset = 0 ∧ reader.furthest = 1 := by
  have hboth : ((Machine.fresh (Reader.first "ac".toList) false).evaluate? grammar.compile [] 100 6).map
      (fun x => (x.1.isSome, x.2.reader.offset)) = some (true, 2) := by decide +kernel
  have hneither : ((Machine.fresh (Reader.first "ad".toList) false).evaluate? grammar.compile [] 100
      6).map (fun x => (x.1.isSome, x.2.reader.offset, x.2.reader.furthest)) =
        some (false, 0, 1) := by decide +kernel
  obtain ⟨⟨result, m⟩, hm, hseen⟩ := Option.map_eq_some_iff.mp hboth
  obtain ⟨⟨result', m'⟩, hm', hseen'⟩ := Option.map_eq_some_iff.mp hneither
  obtain ⟨hsome, hoffset⟩ := Prod.mk.inj hseen
  obtain ⟨hnone, hplace⟩ := Prod.mk.inj hseen'
  obtain ⟨hoffset', hfurthest⟩ := Prod.mk.inj hplace
  obtain ⟨found, rfl⟩ := Option.isSome_iff_exists.mp hsome
  have hresult : result' = none := Option.isNone_iff_eq_none.mp (Option.isSome_eq_false_iff.mp hnone)
  subst hresult
  exact ⟨⟨found, m.reader, (evaluate?_iff_parses _ _ _ _ _ _).mp ⟨100, m, hm, rfl⟩, hoffset⟩,
    m'.reader, (evaluate?_iff_parses _ _ _ _ _ _).mp ⟨100, m', hm', rfl⟩, hoffset', hfurthest⟩

end Retry

end Packrat
