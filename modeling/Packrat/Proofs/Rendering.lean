import Mathlib.Data.List.Basic
import Packrat.Language.Json
import Packrat.Proofs.Likeness
import Packrat.Tree.Render

/-!
# Trees can be read back

What is written of a tree leaves no doubt about the tree, but for its spans.  Each part is followed
by a mark that cannot stand in it: a label by a parenthesis, a comma or nothing, a text by a
quotation mark that is not escaped.  So where two writings agree, the parts end at the same marks.

* `SelfDelimiting`   an escaping in which each character can be told where it begins;
* `Tree.shown`       the tree in writing, by recursion over the tree;
* `Tree.render_eq`   this is how trees are rendered;
* `Tag.Legible`      labels that differ from each other and hold no marks;
* `Tree.Readable`    a tree that is told apart from any other, whatever follows;
* `render_eq_iff`    two trees are written the same way exactly if they are the same.
-/

namespace Packrat

/-- two texts that are followed by something that cannot stand in them end together -/
theorem append_inj_of_stop {stop : Char → Prop} {s t x y : List Char} (hs : ∀ c ∈ s, ¬ stop c)
    (ht : ∀ c ∈ t, ¬ stop c) (hx : ∀ c ∈ x.head?, stop c) (hy : ∀ c ∈ y.head?, stop c)
    (h : s ++ x = t ++ y) : s = t ∧ x = y := by
  rcases List.append_eq_append_iff.mp h with ⟨more, rfl, rfl⟩ | ⟨more, rfl, rfl⟩
  · cases more with
    | nil => simp
    | cons c more => exact absurd (hx c rfl) (ht c (by simp))
  · cases more with
    | nil => simp
    | cons c more => exact absurd (hy c rfl) (hs c (by simp))

/-! ## escaped text -/

/-- a character is written as itself, or as an escape sequence of its own that begins with a
backslash; quotation marks and backslashes are always escaped, and no sequence begins another -/
structure SelfDelimiting (escape : Char → List Char) : Prop where
  written : ∀ c, (escape c = [c] ∧ c ≠ '"' ∧ c ≠ '\\') ∨ ∃ sequence, escape c = '\\' :: sequence
  apart : ∀ c d, escape c <+: escape d → c = d

namespace SelfDelimiting
variable {escape : Char → List Char}

/-- an escaped character does not look like the end of the text -/
theorem head?_ne (h : SelfDelimiting escape) (c : Char) (x : List Char) :
    (escape c ++ x).head? ≠ some '"' := by
  rcases h.written c with ⟨hself, hquote, -⟩ | ⟨sequence, hsequence⟩
  · rw [hself]
    simpa using hquote
  · rw [hsequence]
    simp

theorem append_inj (h : SelfDelimiting escape) {c d : Char} {x y : List Char}
    (heq : escape c ++ x = escape d ++ y) : c = d ∧ x = y := by
  have hcd : c = d := by
    rcases List.append_eq_append_iff.mp heq with ⟨more, hd, -⟩ | ⟨more, hc, -⟩
    · exact h.apart c d ⟨more, hd.symm⟩
    · exact (h.apart d c ⟨more, hc.symm⟩).symm
  rw [hcd] at heq
  exact ⟨hcd, List.append_cancel_left heq⟩

/-- **Escaped text ends at its closing quotation mark and nowhere else**, and can be read back. -/
theorem flatMap_inj (h : SelfDelimiting escape) {s t x y : List Char}
    (heq : s.flatMap escape ++ '"' :: x = t.flatMap escape ++ '"' :: y) : s = t ∧ x = y := by
  induction s generalizing t with
  | nil =>
    cases t with
    | nil => simpa using heq
    | cons d t =>
      rw [List.flatMap_cons, List.append_assoc] at heq
      exact absurd (congrArg List.head? heq).symm (h.head?_ne d _)
  | cons c s ih =>
    cases t with
    | nil =>
      rw [List.flatMap_cons, List.append_assoc] at heq
      exact absurd (congrArg List.head? heq) (h.head?_ne c _)
    | cons d t =>
      rw [List.flatMap_cons, List.flatMap_cons, List.append_assoc, List.append_assoc] at heq
      obtain ⟨hcd, hrest⟩ := h.append_inj heq
      obtain ⟨hst, hxy⟩ := ih hrest
      exact ⟨by rw [hcd, hst], hxy⟩

end SelfDelimiting

/-! ## the escapes in use -/

theorem exists_of_mem_hex {n : Nat} {c : Char} (h : c ∈ Nat.toDigits 16 n) :
    ∃ d < 16, c = Nat.digitChar d := by
  induction n using Nat.strongRecOn with
  | ind n ih =>
    rw [Nat.toDigits_eq_if (by decide)] at h
    split at h
    · next hlt => exact ⟨n, hlt, List.mem_singleton.mp h⟩
    · next hle =>
      rcases List.mem_append.mp h with hmem | hlast
      · exact ih (n / 16) (by omega) hmem
      · exact ⟨n % 16, Nat.mod_lt n (by decide), List.mem_singleton.mp hlast⟩

theorem digitChar_inj {d e : Nat} (hd : d < 16) (he : e < 16)
    (h : Nat.digitChar d = Nat.digitChar e) : d = e := by
  have hall : ∀ d < 16, ∀ e < 16, Nat.digitChar d = Nat.digitChar e → d = e := by decide
  exact hall d hd e he h

/-- the last digit of a number is its remainder, and what stands before it is the quotient -/
theorem hex_eq (n : Nat) : ∃ before, Nat.toDigits 16 n = before ++ [Nat.digitChar (n % 16)] ∧
    (before = [] ↔ n < 16) ∧ (16 ≤ n → before = Nat.toDigits 16 (n / 16)) := by
  rw [Nat.toDigits_eq_if (by decide)]
  split
  · next hlt =>
    rw [Nat.mod_eq_of_lt hlt]
    exact ⟨[], rfl, by simp [hlt], fun hle => by omega⟩
  · next hle => exact ⟨_, rfl, by simp [Nat.toDigits_ne_nil, hle], fun _ => rfl⟩

/-- a number can be read back from its hexadecimal digits -/
theorem hex_inj {m n : Nat} (h : Nat.toDigits 16 m = Nat.toDigits 16 n) : m = n := by
  induction m using Nat.strongRecOn generalizing n with
  | ind m ih =>
    obtain ⟨before, hm, hnil, hbefore⟩ := hex_eq m
    obtain ⟨before', hn, hnil', hbefore'⟩ := hex_eq n
    rw [hm, hn] at h
    obtain ⟨hsame, hdigit⟩ := List.append_inj' h rfl
    have hmod : m % 16 = n % 16 := digitChar_inj (Nat.mod_lt _ (by decide))
      (Nat.mod_lt _ (by decide)) (List.singleton_inj.mp hdigit)
    by_cases hlt : m < 16
    · have hlt' : n < 16 := hnil'.mp (hsame.symm.trans (hnil.mpr hlt))
      omega
    · have hlt' : ¬ n < 16 := fun hn => hlt (hnil.mp (hsame.trans (hnil'.mpr hn)))
      have hdiv : m / 16 = n / 16 := by
        apply ih (m / 16) (by omega)
        rw [← hbefore (by omega), ← hbefore' (by omega), hsame]
      omega

/-- the character that a letter after a backslash stands for -/
def letterMeans (letter : Char) : Char :=
  if letter = 't' then '\t' else if letter = 'n' then '\n' else if letter = 'r' then '\r'
  else if letter = '0' then '\x00' else letter

/-- the three ways of writing a character: as itself, by a letter or by its code point -/
theorem escapeChar_cases (c : Char) :
    (escapeChar c = [c] ∧ c ≠ '"' ∧ c ≠ '\\') ∨
      (∃ letter, escapeChar c = ['\\', letter] ∧ letterMeans letter = c ∧ letter ≠ 'u') ∨
      escapeChar c = codePointEscape c := by
  by_cases hletter : c = '"' ∨ c = '\\' ∨ c = '\t' ∨ c = '\n' ∨ c = '\r' ∨ c = '\x00'
  · refine .inr (.inl ?_)
    rcases hletter with rfl | rfl | rfl | rfl | rfl | rfl
    all_goals exact ⟨_, rfl, rfl, by decide⟩
  · simp only [not_or] at hletter
    obtain ⟨hquote, hslash, htab, hline, hreturn, hzero⟩ := hletter
    rw [escapeChar, if_neg hquote, if_neg hslash, if_neg htab, if_neg hline, if_neg hreturn,
      if_neg hzero]
    split
    · exact .inr (.inr rfl)
    · exact .inl ⟨rfl, hquote, hslash⟩

theorem codePointEscape_apart {c d : Char} (h : codePointEscape c <+: codePointEscape d) :
    c = d := by
  obtain ⟨more, hmore⟩ := h
  -- the digits end at the closing brace
  have hdigits : ∀ e : Char, ∀ x ∈ Nat.toDigits 16 e.toNat, ¬ x = '}' := by
    intro e x hx hbrace
    obtain ⟨k, hk, hxk⟩ := exists_of_mem_hex hx
    have hall : ∀ k < 16, Nat.digitChar k ≠ '}' := by decide
    exact hall k hk (hxk.symm.trans hbrace)
  simp only [codePointEscape, List.cons_append, List.nil_append, List.append_assoc,
    List.cons.injEq, true_and] at hmore
  have hsame := (append_inj_of_stop (hdigits c) (hdigits d) (by simp) (by simp) hmore).1
  exact Char.toNat_inj.mp (hex_inj hsame)

/-- **The escapes in use can be told where they begin and end.** -/
theorem selfDelimiting_escapeChar : SelfDelimiting escapeChar := by
  refine ⟨fun c => ?_, fun c d h => ?_⟩
  · rcases escapeChar_cases c with hself | ⟨letter, hletter, -⟩ | hcode
    · exact .inl hself
    · exact .inr ⟨_, hletter⟩
    · exact .inr ⟨_, hcode⟩
  · rcases escapeChar_cases c with ⟨hc, -, hslash⟩ | ⟨letter, hc, hmeans, hu⟩ | hc <;>
      rcases escapeChar_cases d with ⟨hd, -, hslash'⟩ | ⟨letter', hd, hmeans', hu'⟩ | hd
    -- two ways of writing differ in the first character, or in the second
    all_goals rw [hc, hd] at h
    · simpa using h
    · simp [hslash] at h
    · simp [codePointEscape, hslash] at h
    · simp [hslash'.symm] at h
    · have hsame : letter = letter' := by simpa using h
      rw [← hmeans, ← hmeans', hsame]
    · simp [codePointEscape, hu] at h
    · simp [codePointEscape, hslash'.symm] at h
    · simp [codePointEscape, hu'.symm] at h
    · exact codePointEscape_apart h

/-! ## trees in writing -/

namespace Tree
variable {τ : Type}

/-- what holds of a branch if it holds of its children, and of leaves, holds of all trees -/
theorem induct {motive : Tree τ → Prop}
    (leaf : ∀ tag text span, motive (.leaf tag text span))
    (branch : ∀ tag children, (∀ t ∈ children, motive t) → motive (.branch tag children)) :
    ∀ t, motive t
  | .leaf tag text span => leaf tag text span
  | .branch tag children => branch tag children fun t _ => induct leaf branch t

variable [Tag τ] (escape : Char → List Char)

mutual

/-- the tree in writing, where `escape` is how the characters of a text are written -/
def shown : Tree τ → List Char
  | .leaf tag text _ =>
    (Tag.ofNode tag).toList ++ '(' :: '"' :: text.toList.flatMap escape ++ ['"', ')']
  | .branch tag children => (Tag.ofNode tag).toList ++ shownBelow children

/-- the children of a branch in writing: in parentheses, if there are any -/
def shownBelow : List (Tree τ) → List Char
  | [] => []
  | t :: ts => '(' :: t.shown ++ shownAfter ts ++ [')']

/-- further children in writing, each behind a comma -/
def shownAfter : List (Tree τ) → List Char
  | [] => []
  | t :: ts => ',' :: ' ' :: t.shown ++ shownAfter ts

end

variable {escape}

@[simp] theorem shown_leaf (tag : Option τ) (text : String) (span : Span) :
    (leaf tag text span).shown escape =
      (Tag.ofNode tag).toList ++ '(' :: '"' :: text.toList.flatMap escape ++ ['"', ')'] := by
  rw [shown]

@[simp] theorem shown_branch (tag : Option τ) (children : List (Tree τ)) :
    (branch tag children).shown escape =
      (Tag.ofNode tag).toList ++ shownBelow escape children := by
  rw [shown]

@[simp] theorem shownBelow_nil : shownBelow escape ([] : List (Tree τ)) = [] := by rw [shownBelow]

@[simp] theorem shownBelow_cons (t : Tree τ) (ts : List (Tree τ)) :
    shownBelow escape (t :: ts) = '(' :: t.shown escape ++ shownAfter escape ts ++ [')'] := by
  rw [shownBelow]

@[simp] theorem shownAfter_nil : shownAfter escape ([] : List (Tree τ)) = [] := by rw [shownAfter]

@[simp] theorem shownAfter_cons (t : Tree τ) (ts : List (Tree τ)) :
    shownAfter escape (t :: ts) = ',' :: ' ' :: t.shown escape ++ shownAfter escape ts := by
  rw [shownAfter]

/-- a pending piece in writing -/
def Piece.shown (escape : Char → List Char) : Piece τ → List Char
  | .node lead t => lead.toList ++ t.shown escape
  | .text s => s.toList

theorem Piece.flatMap_further (ts : List (Tree τ)) :
    (Piece.further ts).flatMap (Piece.shown escape) = shownAfter escape ts := by
  induction ts with
  | nil => simp [Piece.further]
  | cons t ts ih =>
    rw [Piece.further, List.map_cons, List.flatMap_cons, ← Piece.further, ih, shownAfter_cons]
    rfl

theorem toList_renderOnto (out : String) (pending : List (Piece τ)) :
    (renderOnto out pending).toList = out.toList ++ pending.flatMap (Piece.shown escapeChar) := by
  fun_induction renderOnto out pending with
  | case1 out => simp
  | case2 out s pending ih => simp [ih, Piece.shown]
  | case3 out lead tag text span pending ih =>
    rw [ih]
    simp [Piece.shown, quote]
  | case4 out lead tag pending ih => simp [ih, Piece.shown]
  | case5 out lead tag c cs pending ih =>
    rw [ih]
    simp [Piece.shown, Piece.flatMap_further]

/-- **A tree is rendered by recursion over it.** -/
theorem render_eq (t : Tree τ) : t.render = String.ofList (t.shown escapeChar) := by
  apply String.toList_inj.mp
  rw [render, toList_renderOnto]
  simp [Piece.shown]

/-- the spans of a tree are not written -/
theorem shown_bare (t : Tree τ) : t.bare.shown escape = t.shown escape := by
  induction t using induct with
  | leaf tag text span => simp
  | branch tag children ih =>
    have hafter : ∀ ts : List (Tree τ), (∀ t ∈ ts, t.bare.shown escape = t.shown escape) →
        shownAfter escape (ts.map bare) = shownAfter escape ts := by
      intro ts
      induction ts with
      | nil => simp
      | cons t ts ih =>
        intro hts
        obtain ⟨ht, hts⟩ := List.forall_mem_cons.mp hts
        rw [List.map_cons, shownAfter_cons, shownAfter_cons, ht, ih hts]
    cases children with
    | nil => simp
    | cons c cs =>
      obtain ⟨hc, hcs⟩ := List.forall_mem_cons.mp ih
      rw [bare_branch, shown_branch, shown_branch, List.map_cons, shownBelow_cons, shownBelow_cons,
        hc, hafter cs hcs]

end Tree

/-! ## reading them back -/

/-- the marks that set off labels, texts and children from one another -/
def marks : List Char := ['(', ')', ',', '"']

/-- labels can be told from each other and from the label of no tag, and hold no marks.  They may hold
blanks, and one of them may be empty. -/
structure Tag.Legible (τ : Type) [Tag τ] : Prop where
  distinct : ∀ a b : τ, Tag.label a = Tag.label b → a = b
  named : ∀ a : τ, Tag.label a ≠ "_"
  plain : ∀ a : τ, ∀ c ∈ (Tag.label a).toList, c ∉ marks

namespace Tag.Legible
variable {τ : Type} [Tag τ] {a b : Option τ} {x y : List Char}

theorem ofNode_inj (h : Tag.Legible τ) (heq : Tag.ofNode a = Tag.ofNode b) : a = b := by
  cases a with
  | none =>
    cases b with
    | none => rfl
    | some b => exact absurd heq.symm (h.named b)
  | some a =>
    cases b with
    | none => exact absurd heq (h.named a)
    | some b => rw [h.distinct a b heq]

theorem ofNode_plain (h : Tag.Legible τ) (a : Option τ) :
    ∀ c ∈ (Tag.ofNode a).toList, ¬ c ∈ marks := by
  cases a with
  | none =>
    simp [Tag.ofNode, marks]
  | some a => exact h.plain a

/-- a label ends where a mark stands -/
theorem append_inj (h : Tag.Legible τ) (hx : ∀ c ∈ x.head?, c ∈ marks)
    (hy : ∀ c ∈ y.head?, c ∈ marks)
    (heq : (Tag.ofNode a).toList ++ x = (Tag.ofNode b).toList ++ y) : a = b ∧ x = y := by
  obtain ⟨hlabel, hrest⟩ := append_inj_of_stop (h.ofNode_plain a) (h.ofNode_plain b) hx hy heq
  exact ⟨h.ofNode_inj (String.toList_inj.mp hlabel), hrest⟩

/-- a label does not look like a text -/
theorem head?_ne (h : Tag.Legible τ) (a : Option τ) (hx : x.head? ≠ some '"') :
    ((Tag.ofNode a).toList ++ x).head? ≠ some '"' := by
  cases hlabel : (Tag.ofNode a).toList with
  | nil => exact hx
  | cons c label =>
    have hc := h.ofNode_plain a c (by rw [hlabel]; exact List.mem_cons_self)
    intro hquote
    rw [Option.some.inj hquote] at hc
    exact hc (by decide)

end Tag.Legible

namespace Tree

/-- what can follow a tree: nothing, a further child or the end of the children -/
def CanFollow (x : List Char) : Prop := ∀ c ∈ x.head?, c = ',' ∨ c = ')'

variable {τ : Type} [Tag τ] {escape : Char → List Char} {ts us : List (Tree τ)} {x y z : List Char}

/-- the tree is told apart from any other, and what follows it from what follows the other -/
def Readable (escape : Char → List Char) (t : Tree τ) : Prop :=
  ∀ (u : Tree τ) (x y : List Char), CanFollow x → CanFollow y →
    t.shown escape ++ x = u.shown escape ++ y → t.bare = u.bare ∧ x = y

theorem canFollow_shownAfter (ts : List (Tree τ)) (x : List Char) :
    CanFollow (shownAfter escape ts ++ ')' :: x) := by
  cases ts <;> simp [CanFollow]

theorem head?_shownBelow (ts : List (Tree τ)) (hx : CanFollow x) :
    ∀ c ∈ (shownBelow escape ts ++ x).head?, c = '(' ∨ c = ',' ∨ c = ')' := by
  cases ts with
  | nil =>
    rw [shownBelow_nil]
    exact fun c hc => .inr (hx c hc)
  | cons t ts => simp

theorem head?_shown_ne (h : Tag.Legible τ) (t : Tree τ) (hx : CanFollow x) :
    (t.shown escape ++ x).head? ≠ some '"' := by
  cases t with
  | leaf tag text span =>
    rw [shown_leaf, List.append_assoc, List.append_assoc]
    exact h.head?_ne tag (by simp)
  | branch tag children =>
    rw [shown_branch, List.append_assoc]
    refine h.head?_ne tag fun hquote => ?_
    simpa using head?_shownBelow children hx '"' hquote

/-- children do not look like a text -/
theorem shownBelow_ne (h : Tag.Legible τ) (ts : List (Tree τ)) (hx : CanFollow x) :
    shownBelow escape ts ++ x ≠ '(' :: '"' :: z := by
  intro heq
  cases ts with
  | nil =>
    rw [shownBelow_nil, List.nil_append] at heq
    simpa using hx '(' (by rw [heq]; rfl)
  | cons t ts =>
    simp only [shownBelow_cons, List.cons_append, List.append_assoc, List.nil_append,
      List.cons.injEq, true_and] at heq
    exact head?_shown_ne h t (canFollow_shownAfter ts x) (by rw [heq]; rfl)

theorem shownAfter_inj (hts : ∀ t ∈ ts, t.Readable escape)
    (h : shownAfter escape ts ++ ')' :: x = shownAfter escape us ++ ')' :: y) :
    ts.map bare = us.map bare ∧ x = y := by
  induction ts generalizing us with
  | nil =>
    cases us with
    | nil => simpa using h
    | cons u us => simp at h
  | cons t ts ih =>
    cases us with
    | nil => simp at h
    | cons u us =>
      obtain ⟨ht, hts⟩ := List.forall_mem_cons.mp hts
      simp only [shownAfter_cons, List.cons_append, List.append_assoc, List.cons.injEq,
        true_and] at h
      obtain ⟨hbare, hrest⟩ := ht u _ _ (canFollow_shownAfter ts x) (canFollow_shownAfter us y) h
      obtain ⟨hbares, hxy⟩ := ih hts hrest
      exact ⟨by rw [List.map_cons, List.map_cons, hbare, hbares], hxy⟩

theorem shownBelow_inj (hts : ∀ t ∈ ts, t.Readable escape) (hx : CanFollow x) (hy : CanFollow y)
    (h : shownBelow escape ts ++ x = shownBelow escape us ++ y) :
    ts.map bare = us.map bare ∧ x = y := by
  cases ts with
  | nil =>
    cases us with
    | nil => simpa using h
    | cons u us =>
      rw [shownBelow_nil, List.nil_append] at h
      simpa using hx '(' (by rw [h]; simp)
  | cons t ts =>
    cases us with
    | nil =>
      rw [shownBelow_nil, List.nil_append] at h
      simpa using hy '(' (by rw [← h]; simp)
    | cons u us =>
      -- the first child ends where the further ones begin
      obtain ⟨ht, hts⟩ := List.forall_mem_cons.mp hts
      simp only [shownBelow_cons, List.cons_append, List.append_assoc, List.nil_append,
        List.cons.injEq, true_and] at h
      obtain ⟨hbare, hrest⟩ := ht u _ _ (canFollow_shownAfter ts x) (canFollow_shownAfter us y) h
      obtain ⟨hbares, hxy⟩ := shownAfter_inj hts hrest
      exact ⟨by rw [List.map_cons, List.map_cons, hbare, hbares], hxy⟩

/-- **Every tree is told apart from any other, whatever follows it.** -/
theorem readable (hescape : SelfDelimiting escape) (h : Tag.Legible τ) (t : Tree τ) :
    t.Readable escape := by
  have hmark : ∀ (ts : List (Tree τ)) {x : List Char}, CanFollow x →
      ∀ c ∈ (shownBelow escape ts ++ x).head?, c ∈ marks := by
    intro ts x hx c hc
    rcases head?_shownBelow ts hx c hc with rfl | rfl | rfl <;> decide
  induction t using induct with
  | leaf tag text span =>
    intro u x y hx hy heq
    rw [shown_leaf, List.append_assoc, List.append_assoc] at heq
    cases u with
    | leaf tag' text' span' =>
      rw [shown_leaf, List.append_assoc, List.append_assoc] at heq
      obtain ⟨rfl, hrest⟩ := h.append_inj (by simp [marks]) (by simp [marks]) heq
      simp only [List.cons_append, List.nil_append, List.cons.injEq, true_and] at hrest
      obtain ⟨htext, hxy⟩ := hescape.flatMap_inj hrest
      rw [bare_leaf, bare_leaf, String.toList_inj.mp htext]
      exact ⟨rfl, List.cons_inj_right _ |>.mp hxy⟩
    | branch tag' us =>
      rw [shown_branch, List.append_assoc] at heq
      obtain ⟨-, hrest⟩ := h.append_inj (by simp [marks]) (hmark us hy) heq
      exact absurd hrest.symm (shownBelow_ne h us hy)
  | branch tag ts ih =>
    intro u x y hx hy heq
    rw [shown_branch, List.append_assoc] at heq
    cases u with
    | leaf tag' text' span' =>
      rw [shown_leaf, List.append_assoc, List.append_assoc] at heq
      obtain ⟨-, hrest⟩ := h.append_inj (hmark ts hx) (by simp [marks]) heq
      exact absurd hrest (shownBelow_ne h ts hx)
    | branch tag' us =>
      rw [shown_branch, List.append_assoc] at heq
      obtain ⟨rfl, hrest⟩ := h.append_inj (hmark ts hx) (hmark us hy) heq
      obtain ⟨hbares, hxy⟩ := shownBelow_inj ih hx hy hrest
      exact ⟨by rw [bare_branch, bare_branch, hbares], hxy⟩

/-- the writing of a tree determines the tree but for its spans, whichever the escapes are -/
theorem shown_eq_iff (hescape : SelfDelimiting escape) (h : Tag.Legible τ) (t u : Tree τ) :
    t.shown escape = u.shown escape ↔ t.bare = u.bare := by
  constructor
  · intro heq
    have hnothing : CanFollow [] := nofun
    exact (readable hescape h t u [] [] hnothing hnothing (by rw [heq])).1
  · intro hbare
    rw [← shown_bare t, ← shown_bare u, hbare]

end Tree

/-- **The printed tree determines the tree.**  Where labels are legible, two trees are rendered alike
exactly if they are the same; and so they would be with any other escapes that can be told where they
begin and end. -/
theorem render_eq_iff {τ : Type} [Tag τ] [BEq τ] [LawfulBEq τ] (h : Tag.Legible τ) (t u : Tree τ) :
    (t.render = u.render ↔ t.same u = true) ∧
      ∀ escape, SelfDelimiting escape →
        (t.shown escape = u.shown escape ↔ t.same u = true) := by
  rw [Tree.render_eq, Tree.render_eq, String.ofList_inj, Tree.same_iff]
  exact ⟨Tree.shown_eq_iff selfDelimiting_escapeChar h t u,
    fun escape hescape => Tree.shown_eq_iff hescape h t u⟩

/-! ## a string that looks like two -/

namespace Lookalike

theorem legible : Tag.Legible JsonTag := by
  refine ⟨fun a b h => ?_, fun a => ?_, fun a c hc => ?_⟩
  · cases a <;> cases b <;> revert h <;> decide
  · cases a <;> decide
  · have hplain : (Tag.label a).toList.all (fun c => decide (c ∉ marks)) = true := by
      cases a <;> decide
    exact of_decide_eq_true (List.all_eq_true.mp hplain c hc)

/-- an array of two strings -/
def two : Tree JsonTag :=
  .branch (some .array) [.leaf (some .string) "a" ⟨1, 4⟩, .leaf (some .string) "b" ⟨5, 8⟩]

/-- the same array, found elsewhere -/
def moved : Tree JsonTag :=
  .branch (some .array) [.leaf (some .string) "a" ⟨3, 6⟩, .leaf (some .string) "b" ⟨9, 12⟩]

/-- an array of one string, which holds what stands between the two -/
def one : Tree JsonTag :=
  .branch (some .array) [.leaf (some .string) "a\"), String(\"b" ⟨1, 18⟩]

/-- the two are written like what was found elsewhere, but not like the one -/
theorem render_eq_iff_of_two : two.render = moved.render ∧ two.render ≠ one.render := by
  have hmoved : two.same moved = true := by simp [Tree.same_iff, two, moved]
  have hone : ¬ two.same one = true := by simp [Tree.same_iff, two, one]
  exact ⟨(render_eq_iff legible two moved).1.mpr hmoved,
    mt (render_eq_iff legible two one).1.mp hone⟩

end Lookalike

end Packrat
