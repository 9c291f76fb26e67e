import Mathlib.Data.List.TakeWhile
import Packrat.Pattern.Token

/-!
# Tokens before a closing parenthesis

A pattern may be put between parentheses before it is read.  Each token is then read with a closing
parenthesis somewhere behind it, and nothing but the end of the text can tell the difference: a token
that is complete stays the same, and one that is not is cut short later or, at the very end, takes
the parenthesis for a part of itself.

* `Token.Alike`          what reading comes to, without the parenthesis and with it;
* `Token.next_alike`     so it is with every token;
* `Token.scan_of_next`   tokens are read one after the other, and there is fuel for all of them;
* `Token.scan_concat`    so the parenthesis is a token of its own behind those of the text, or the text
                         cannot be read without it.
-/

namespace Packrat

namespace Token
variable {α β : Type} {lone : α → Prop} {n n' : Nat}

/-- What reading comes to, without a closing parenthesis behind the text and with it: the same, with
the parenthesis left over and fewer than `n` characters before it; or nothing in both cases; or, with
the parenthesis only, something that takes it and leaves nothing. -/
inductive Alike (lone : α → Prop) (n : Nat) :
    Except PatternError (α × List Char) → Except PatternError (α × List Char) → Prop
  | reads {a : α} {rest : List Char} : rest.length < n →
      Alike lone n (.ok (a, rest)) (.ok (a, rest ++ [')']))
  | fails (e e' : PatternError) : Alike lone n (.error e) (.error e')
  | takes {a : α} (e : PatternError) : lone a → Alike lone n (.error e) (.ok (a, []))

namespace Alike
variable {x y x' y' : Except PatternError (α × List Char)}

theorem mono (h : Alike lone n x y) (hn : n ≤ n') : Alike lone n' x y := by
  cases h with
  | reads hlt => exact .reads (hlt.trans_le hn)
  | fails e e' => exact .fails e e'
  | takes e ha => exact .takes e ha

theorem ite {p : Prop} [Decidable p] (h : Alike lone n x y) (h' : Alike lone n x' y') :
    Alike lone n (if p then x else x') (if p then y else y') := by
  split
  · exact h
  · exact h'

theorem map {lone' : β → Prop} (f : α → β) (hf : ∀ a, lone a → lone' (f a)) (h : Alike lone n x y) :
    Alike lone' n (x.map fun found => (f found.1, found.2))
      (y.map fun found => (f found.1, found.2)) := by
  cases h with
  | reads hlt => exact .reads hlt
  | fails e e' => exact .fails e e'
  | takes e ha => exact .takes e (hf _ ha)

end Alike

/-- nothing takes the parenthesis -/
def Never (_ : α) : Prop := False

/-- anything may take the parenthesis -/
def Anything (_ : α) : Prop := True

/-! ## searching with a character behind the text -/

section
variable {p : Char → Bool} {c d : Char} {cs after : List Char}

theorem dropWhile_concat (h : p c = false) (cs : List Char) :
    (cs ++ [c]).dropWhile p = cs.dropWhile p ++ [c] := by
  rw [List.dropWhile_append]
  split
  · next hnil =>
    rw [List.isEmpty_iff.mp hnil, List.dropWhile_cons_of_neg (by simp [h]), List.nil_append]
  · rfl

theorem takeWhile_concat (h : p c = false) (cs : List Char) :
    (cs ++ [c]).takeWhile p = cs.takeWhile p := by
  rw [List.takeWhile_append]
  split
  · next hall =>
    rw [List.takeWhile_cons_of_neg (by simp [h]), List.append_nil]
    exact ((List.takeWhile_prefix p).eq_of_length hall).symm
  · rfl

/-- a search that hits nothing still does if the character is no hit -/
theorem dropWhile_concat_eq_nil (hc : p c = true) (h : cs.dropWhile p = []) :
    (cs ++ [c]).dropWhile p = [] := by
  rw [List.dropWhile_append, h]
  simp [hc]

/-- a search that hits something does not come to the character -/
theorem dropWhile_concat_eq_cons (c : Char) (h : cs.dropWhile p = d :: after) :
    (cs ++ [c]).dropWhile p = d :: (after ++ [c]) ∧ (cs ++ [c]).takeWhile p = cs.takeWhile p := by
  constructor
  · rw [List.dropWhile_append, h]
    rfl
  · rw [List.takeWhile_append, if_neg]
    intro hall
    have hboth := congrArg List.length (List.takeWhile_append_dropWhile (p := p) (l := cs))
    rw [h, List.length_append, List.length_cons] at hboth
    omega

theorem concat_ne_cons (hd : d ≠ c) (h : ∀ rest, cs ≠ d :: rest) (rest : List Char) :
    cs ++ [c] ≠ d :: rest := by
  intro heq
  cases cs with
  | nil => exact hd (List.cons.inj heq).1.symm
  | cons b cs => exact h cs (congrArg (· :: cs) (List.cons.inj heq).1)

/-- the first character stays the same, if it is another one -/
theorem head?_concat (h : d ≠ c) (cs : List Char) :
    (cs ++ [c]).head? = some d ↔ cs.head? = some d := by
  cases cs with
  | nil => simp [h.symm]
  | cons b cs => exact Iff.rfl

end

/-! ## escape sequences -/

theorem charOfHex_concat (ds : List Char) : charOfHex (ds ++ [')']) = .error .invalidCodePoint := by
  have hvalue : hexValue? (ds ++ [')']) = none := by
    rw [hexValue?, List.foldl_append, List.foldl_cons, List.foldl_nil]
    generalize ds.foldl _ (some 0) = n?
    cases n? <;> rfl
  rw [charOfHex, hvalue, Option.bind_none]
  cases (ds ++ [')']).isEmpty <;> rfl

theorem readHex_alike (width : Nat) (cs : List Char) :
    Alike Never (cs.length + 1) (readHex width cs) (readHex width (cs ++ [')'])) := by
  by_cases hbrace : ∃ rest, cs = '\x7b' :: rest
  · obtain ⟨rest, rfl⟩ := hbrace
    rw [List.cons_append, readHex, readHex]
    cases hfound : rest.dropWhile (· ≠ '\x7d') with
    | nil =>
      rw [dropWhile_concat_eq_nil (by decide) hfound]
      exact .fails _ _
    | cons d after =>
      obtain ⟨hdrop, htake⟩ := dropWhile_concat_eq_cons ')' hfound
      rw [hdrop, htake]
      have hle : (d :: after).length ≤ rest.length := by
        rw [← hfound]
        exact (List.dropWhile_suffix _).length_le
      rw [List.length_cons] at hle
      cases charOfHex (rest.takeWhile (· ≠ '\x7d')) with
      | error e => exact .fails e e
      | ok c => exact .reads (by rw [List.length_cons]; omega)
  · have hbrace := not_exists.mp hbrace
    rw [readHex.eq_2 _ _ hbrace, readHex.eq_2 _ _ (concat_ne_cons (by decide) hbrace),
      List.length_append, List.length_singleton]
    by_cases hshort : cs.length < width
    · rw [if_pos hshort]
      -- with the parenthesis there may be enough characters, but not enough digits
      by_cases hshort' : cs.length + 1 < width
      · rw [if_pos hshort']
        exact .fails _ _
      · have hall : (cs ++ [')']).take width = cs ++ [')'] :=
          List.take_of_length_le (by rw [List.length_append, List.length_singleton]; omega)
        rw [if_neg hshort', hall, charOfHex_concat]
        exact .fails _ _
    · rw [if_neg hshort, if_neg (by omega), List.take_append_of_le_length (by omega),
        List.drop_append_of_le_length (by omega)]
      cases charOfHex (cs.take width) with
      | error e => exact .fails e e
      | ok c => exact .reads (by rw [List.length_drop]; omega)

theorem readEscape_alike (c : Char) (rest : List Char) :
    Alike Never (rest.length + 1) (readEscape (c :: rest)) (readEscape (c :: (rest ++ [')']))) := by
  have hhex : ∀ width, Alike Never (rest.length + 1)
      ((readHex width rest).map fun found => (Escape.char found.1, found.2))
      ((readHex width (rest ++ [')'])).map fun found => (Escape.char found.1, found.2)) := by
    intro width
    exact (readHex_alike width rest).map Escape.char fun _ h => h
  have hreads : ∀ x : Escape, Alike Never (rest.length + 1) (.ok (x, rest))
      (.ok (x, rest ++ [')'])) := fun x => .reads (Nat.lt_succ_self _)
  rw [readEscape, readEscape]
  iterate 16 refine .ite (hreads _) ?_
  iterate 3 refine .ite (hhex _) ?_
  exact .ite (.fails _ _) (.ite (.fails _ _) (hreads _))

/-! ## classes -/

theorem readElement_alike (cs : List Char) :
    Alike Anything cs.length (readElement cs) (readElement (cs ++ [')'])) := by
  cases cs with
  | nil => exact .takes _ trivial
  | cons c rest =>
    by_cases hc : c = '\\'
    · subst hc
      rw [List.cons_append, readElement, readElement]
      cases rest with
      | nil => exact .takes _ trivial
      | cons d rest =>
        rw [List.cons_append]
        have hescape := readEscape_alike d rest
        generalize readEscape (d :: rest) = x, readEscape (d :: (rest ++ [')'])) = y at hescape ⊢
        cases hescape with
        | @reads escape left hlt =>
          cases escape with
          | char c => exact .reads (by simp only [List.length_cons]; omega)
          | set s => exact .reads (by simp only [List.length_cons]; omega)
          | assert a => exact .fails _ _
        | fails e e' => exact .fails e e'
        | takes e h => exact h.elim
    · have hplain : ∀ rest, readElement (c :: rest) = .ok (.inl c, rest) := by
        intro rest
        rw [readElement.eq_def]
        split
        · next h => cases h
        · next h => exact absurd (List.cons.inj h).1 hc
        · next h =>
          cases h
          rfl
      rw [List.cons_append, hplain, hplain]
      exact .reads (Nat.lt_succ_self _)

/-- the range between two characters, after its hyphen -/
def readRange (lo : Char ⊕ CharSet) (rest : List Char) :
    Except PatternError (CharSet × List Char) :=
  match lo, readElement rest with
  | _, .error e => .error e
  | .inl lo, .ok (.inl hi, rest) =>
    if lo ≤ hi then .ok (.range lo hi, rest) else .error (.invalidRange lo hi)
  | _, .ok _ => .error .classAsRangeEnd

theorem readRange_alike (lo : Char ⊕ CharSet) (rest : List Char) :
    Alike Anything rest.length (readRange lo rest) (readRange lo (rest ++ [')'])) := by
  have helement := readElement_alike rest
  unfold readRange
  generalize readElement rest = x, readElement (rest ++ [')']) = y at helement ⊢
  cases helement with
  | @reads hi left hlt =>
    cases lo with
    | inl lo =>
      cases hi with
      | inl hi => exact .ite (.reads hlt) (.fails _ _)
      | inr t => exact .fails _ _
    | inr s => cases hi <;> exact .fails _ _
  | fails e e' => exact .fails e e'
  | @takes hi e _ =>
    cases lo with
    | inl lo =>
      cases hi with
      | inl hi =>
        show Alike Anything _ (.error e) (if lo ≤ hi then _ else _)
        split
        · exact .takes e trivial
        · exact .fails _ _
      | inr t => exact .fails _ _
    | inr s => cases hi <;> exact .fails _ _

theorem readItem_of_dash {cs rest : List Char} {lo : Char ⊕ CharSet}
    (h : readElement cs = .ok (lo, '-' :: rest)) :
    readItem cs = if rest.head? = some ']' ∨ rest.head? = some '-' then
      .ok (elementSet lo, '-' :: rest) else readRange lo rest := by
  rw [readItem, h]
  rfl

theorem readItem_of_not_dash {cs rest : List Char} {element : Char ⊕ CharSet}
    (h : readElement cs = .ok (element, rest)) (hrest : ∀ after, rest ≠ '-' :: after) :
    readItem cs = .ok (elementSet element, rest) := by
  rw [readItem, h]
  split
  · next h => cases h
  · next h => exact absurd (Prod.mk.inj (Except.ok.inj h)).2 (hrest _)
  · next h =>
    cases h
    rfl

theorem readItem_alike (cs : List Char) :
    Alike Anything cs.length (readItem cs) (readItem (cs ++ [')'])) := by
  have helement := readElement_alike cs
  cases hx : readElement cs with
  | error e =>
    have hitem : readItem cs = .error e := by rw [readItem, hx]
    cases hy : readElement (cs ++ [')']) with
    | error e' =>
      rw [hitem, readItem, hy]
      exact .fails e e'
    | ok found =>
      obtain ⟨element, left⟩ := found
      rw [hx, hy] at helement
      cases helement with
      | takes _ _ =>
        rw [hitem, readItem_of_not_dash hy (by simp)]
        exact .takes e trivial
  | ok found =>
    obtain ⟨element, left⟩ := found
    rw [hx] at helement
    generalize hy : readElement (cs ++ [')']) = y at helement
    cases helement with
    | reads hlt =>
      by_cases hdash : ∃ rest, left = '-' :: rest
      · obtain ⟨rest, rfl⟩ := hdash
        rw [List.length_cons] at hlt
        rw [List.cons_append] at hy
        rw [readItem_of_dash hx, readItem_of_dash hy]
        simp only [head?_concat (c := ')') (d := ']') (by decide),
          head?_concat (c := ')') (d := '-') (by decide)]
        exact .ite (.reads hlt) ((readRange_alike element rest).mono (by omega))
      · have hdash := not_exists.mp hdash
        rw [readItem_of_not_dash hx hdash,
          readItem_of_not_dash hy (concat_ne_cons (by decide) hdash)]
        exact .reads hlt

theorem combinesClasses_concat (cs : List Char) :
    combinesClasses (cs ++ [')']) = combinesClasses cs := by
  match cs with
  | [] => rfl
  | [c] =>
    rw [List.cons_append, List.nil_append]
    unfold combinesClasses
    split <;> simp_all
  | c :: d :: rest =>
    rw [List.cons_append, List.cons_append]
    unfold combinesClasses
    split <;> simp_all

theorem readItems_nil (fuel : Nat) (s : CharSet) : readItems fuel s [] = .error .unclosedClass := by
  cases fuel <;> rfl

theorem readItems_alike (fuel fuel' : Nat) (s : CharSet) (cs : List Char) (h : cs.length < fuel)
    (h' : cs.length + 1 < fuel') :
    Alike Never cs.length (readItems fuel s cs) (readItems fuel' s (cs ++ [')'])) := by
  induction fuel generalizing fuel' s cs with
  | zero => exact absurd h (Nat.not_lt_zero _)
  | succ fuel ih =>
    obtain ⟨fuel', rfl⟩ : ∃ k, fuel' = k + 1 := ⟨fuel' - 1, by omega⟩
    by_cases hclose : ∃ rest, cs = ']' :: rest
    · obtain ⟨rest, rfl⟩ := hclose
      exact .reads (Nat.lt_succ_self _)
    · have hclose := not_exists.mp hclose
      have hclose' := concat_ne_cons (c := ')') (by decide) hclose
      rw [readItems.eq_4 _ _ _ (by simp) hclose', combinesClasses_concat]
      have hitem := readItem_alike cs
      cases cs with
      | nil =>
        -- nothing is left for the bracket after the parenthesis
        show Alike Never _ (.error .unclosedClass) (readItems fuel' _ [])
        rw [readItems_nil]
        exact .fails _ _
      | cons c rest =>
        rw [readItems.eq_4 _ _ _ (by simp) hclose]
        generalize readItem (c :: rest) = x, readItem (c :: rest ++ [')']) = y at hitem ⊢
        refine .ite (.fails _ _) ?_
        cases hitem with
        | reads hlt => exact (ih _ _ _ (by omega) (by omega)).mono hlt.le
        | fails e e' => exact .fails e e'
        | takes e _ =>
          show Alike Never _ (.error e) (readItems fuel' _ [])
          rw [readItems_nil]
          exact .fails e _

theorem readClass_alike (cs : List Char) :
    Alike Never cs.length (readClass cs) (readClass (cs ++ [')'])) := by
  by_cases hdash : ∃ rest, cs = '-' :: rest
  · obtain ⟨rest, rfl⟩ := hdash
    have hle := (List.dropWhile_suffix (· = '-') (l := '-' :: rest)).length_le
    rw [readClass, List.cons_append, readClass, ← List.cons_append, dropWhile_concat (by decide),
      List.length_append, List.length_singleton]
    exact (readItems_alike _ _ _ _ (by omega) (by omega)).mono hle
  by_cases hclose : ∃ rest, cs = ']' :: rest
  · obtain ⟨rest, rfl⟩ := hclose
    rw [readClass, List.cons_append, readClass]
    simp only [List.length_cons, List.length_append]
    exact (readItems_alike _ _ _ _ (by omega) (by simp)).mono (by simp)
  · have hdash := not_exists.mp hdash
    have hclose := not_exists.mp hclose
    rw [readClass.eq_3 _ hdash hclose,
      readClass.eq_3 _ (concat_ne_cons (by decide) hdash) (concat_ne_cons (by decide) hclose),
      List.length_append, List.length_singleton]
    exact readItems_alike _ _ _ _ (by omega) (by omega)

theorem readBrackets_alike (cs : List Char) :
    Alike Never cs.length (readBrackets cs) (readBrackets (cs ++ [')'])) := by
  by_cases hnot : ∃ rest, cs = '^' :: rest
  · obtain ⟨rest, rfl⟩ := hnot
    exact ((readClass_alike rest).map CharSet.compl fun _ h => h).mono (Nat.le_succ _)
  · have hnot := not_exists.mp hnot
    rw [readBrackets.eq_2 _ hnot, readBrackets.eq_2 _ (concat_ne_cons (by decide) hnot)]
    exact readClass_alike cs

/-! ## repetitions -/

theorem readLazy_alike {lone : Token → Prop} (least : Nat) (most : Option Nat) (cs : List Char) :
    Alike lone (cs.length + 1) (.ok (readLazy least most cs))
      (.ok (readLazy least most (cs ++ [')']))) := by
  by_cases hlazy : ∃ rest, cs = '?' :: rest
  · obtain ⟨rest, rfl⟩ := hlazy
    exact .reads (by rw [List.length_cons]; omega)
  · have hlazy := not_exists.mp hlazy
    rw [readLazy.eq_2 _ _ _ hlazy, readLazy.eq_2 _ _ _ (concat_ne_cons (by decide) hlazy)]
    exact .reads (Nat.lt_succ_self _)

theorem readNumber_alike (cs : List Char) :
    Alike Never (cs.length + 1) (readNumber cs) (readNumber (cs ++ [')'])) := by
  simp only [readNumber]
  rw [dropWhile_concat (by decide), takeWhile_concat (by decide), dropWhile_concat (by decide),
    dropWhile_concat (by decide)]
  refine .ite (.fails _ _) (.reads (Nat.lt_succ_of_le ?_))
  calc
    (((cs.dropWhile isWhiteSpace).dropWhile Char.isDigit).dropWhile isWhiteSpace).length
    _ ≤ ((cs.dropWhile isWhiteSpace).dropWhile Char.isDigit).length :=
      (List.dropWhile_suffix _).length_le
    _ ≤ (cs.dropWhile isWhiteSpace).length := (List.dropWhile_suffix _).length_le
    _ ≤ cs.length := (List.dropWhile_suffix _).length_le

/-- the second number of a count, after the comma -/
def readMost (least : Nat) (cs : List Char) : Except PatternError (Token × List Char) :=
  match readNumber cs with
  | .error e => .error e
  | .ok (most, '\x7d' :: rest) =>
    if least ≤ most then .ok (readLazy least (some most) rest)
    else .error (.emptyCountRange least most)
  | .ok _ => .error .unclosedCount

/-- a count after its first number -/
def readBound (least : Nat) : List Char → Except PatternError (Token × List Char)
  | '\x7d' :: rest => .ok (readLazy least (some least) rest)
  | ',' :: '\x7d' :: rest => .ok (readLazy least none rest)
  | ',' :: rest => readMost least rest
  | _ => .error .unclosedCount

theorem readCount_of_number {cs rest : List Char} {least : Nat}
    (h : readNumber cs = .ok (least, rest)) : readCount cs = readBound least rest := by
  rw [readCount, h]
  fun_cases readBound least rest with
  | case1 rest => rfl
  | case2 rest => rfl
  | case3 rest hopen => grind [readMost]
  | case4 rest hbrace hopen hcomma => grind

theorem readMost_alike {lone : Token → Prop} (least : Nat) (cs : List Char) :
    Alike lone (cs.length + 1) (readMost least cs) (readMost least (cs ++ [')'])) := by
  have hnumber := readNumber_alike cs
  unfold readMost
  generalize readNumber cs = x, readNumber (cs ++ [')']) = y at hnumber ⊢
  cases hnumber with
  | @reads most rest hlt =>
    by_cases hbrace : ∃ after, rest = '\x7d' :: after
    · obtain ⟨after, rfl⟩ := hbrace
      rw [List.length_cons] at hlt
      exact .ite ((readLazy_alike _ _ after).mono (by omega)) (.fails _ _)
    · have hbrace := not_exists.mp hbrace
      have hbrace' := concat_ne_cons (c := ')') (by decide) hbrace
      split
      · next h => cases h
      · next h =>
        cases h
        exact absurd rfl (hbrace _)
      · split
        · next h => cases h
        · next h =>
          exact absurd (Prod.mk.inj (Except.ok.inj h)).2 (hbrace' _)
        · exact .fails _ _
  | fails e e' => exact .fails e e'
  | takes e h => exact h.elim

theorem readBound_alike {lone : Token → Prop} (least : Nat) (cs : List Char) :
    Alike lone (cs.length + 1) (readBound least cs) (readBound least (cs ++ [')'])) := by
  by_cases hbrace : ∃ rest, cs = '\x7d' :: rest
  · obtain ⟨rest, rfl⟩ := hbrace
    exact (readLazy_alike _ _ rest).mono (Nat.le_succ _)
  have hbrace := not_exists.mp hbrace
  have hbrace' := concat_ne_cons (c := ')') (by decide) hbrace
  by_cases hcomma : ∃ rest, cs = ',' :: rest
  · obtain ⟨rest, rfl⟩ := hcomma
    by_cases hopen : ∃ after, rest = '\x7d' :: after
    · obtain ⟨after, rfl⟩ := hopen
      exact (readLazy_alike _ _ after).mono (by simp)
    · have hopen := not_exists.mp hopen
      rw [List.cons_append, readBound.eq_3 _ _ hopen,
        readBound.eq_3 _ _ (concat_ne_cons (by decide) hopen)]
      exact (readMost_alike least rest).mono (Nat.le_succ _)
  · have hcomma := not_exists.mp hcomma
    have hcomma' := concat_ne_cons (c := ')') (by decide) hcomma
    rw [readBound.eq_4 _ _ hbrace (fun _ => hcomma _) hcomma,
      readBound.eq_4 _ _ hbrace' (fun _ => hcomma' _) hcomma']
    exact .fails _ _

theorem readCount_alike {lone : Token → Prop} (cs : List Char) :
    Alike lone (cs.length + 1) (readCount cs) (readCount (cs ++ [')'])) := by
  have hnumber := readNumber_alike cs
  cases hx : readNumber cs with
  | error e =>
    rw [hx] at hnumber
    generalize hy : readNumber (cs ++ [')']) = y at hnumber
    cases hnumber with
    | fails _ e' =>
      rw [readCount, hx, readCount, hy]
      exact .fails e e'
    | takes _ h => exact h.elim
  | ok found =>
    rw [hx] at hnumber
    generalize hy : readNumber (cs ++ [')']) = y at hnumber
    cases hnumber with
    | reads hlt =>
      rw [readCount_of_number hx, readCount_of_number hy]
      exact (readBound_alike _ _).mono (by omega)

/-! ## groups -/

/-- The tokens that a parenthesis at the very end can be a part of: after a backslash, and after
flags. -/
def Lone (token : Token) : Prop := token = .char ')' ∨ ∃ changes, token = .flags changes

theorem readFlags_alike (changes : List (Flag × Bool)) (off dangling : Bool) (cs : List Char) :
    Alike Lone cs.length (readFlags changes off dangling cs)
      (readFlags changes off dangling (cs ++ [')'])) := by
  induction cs generalizing changes off dangling with
  | nil =>
    show Alike Lone _ (.error .unclosedFlags)
      (if dangling then _ else if changes.isEmpty then _ else _)
    split
    · exact .fails _ _
    · split
      · exact .fails _ _
      · exact .takes _ (.inr ⟨_, rfl⟩)
  | cons c rest ih =>
    have hreads : ∀ token, Alike Lone (rest.length + 1) (.ok (token, rest))
        (.ok (token, rest ++ [')'])) := fun _ => .reads (Nat.lt_succ_self _)
    rw [List.cons_append, readFlags, readFlags, List.length_cons]
    refine .ite (.ite (.fails _ _) (.ite (.fails _ _) (hreads _))) ?_
    refine .ite (.ite (.fails _ _) (hreads _)) ?_
    refine .ite (.ite (.fails _ _) ((ih _ _ _).mono (Nat.le_succ _))) ?_
    cases flagOf? c with
    | none => exact .fails _ _
    | some flag =>
      exact .ite (.fails _ _) (.ite (.fails _ _) ((ih _ _ _).mono (Nat.le_succ _)))

theorem readName_alike {lone : Token → Prop} (cs : List Char) :
    Alike lone cs.length (readName cs) (readName (cs ++ [')'])) := by
  simp only [readName]
  cases hfound : cs.dropWhile (· ≠ '>') with
  | nil =>
    rw [dropWhile_concat_eq_nil (by decide) hfound]
    exact .fails _ _
  | cons d rest =>
    obtain ⟨hdrop, htake⟩ := dropWhile_concat_eq_cons ')' hfound
    have hle := (List.dropWhile_suffix (· ≠ '>') (l := cs)).length_le
    rw [hfound, List.length_cons] at hle
    rw [hdrop, htake]
    exact .ite (.reads hle) (.fails _ _)

theorem readOpening_of_ne {cs : List Char} (h : ∀ rest, cs ≠ '?' :: rest) :
    readOpening cs = .ok (.opening (.capturing none), cs) :=
  readOpening.eq_9 cs (fun _ => h _) (fun _ => h _) (fun _ => h _) (fun _ => h _) (fun _ => h _)
    (fun _ => h _) (fun _ => h _) h

theorem readOpening_question {cs : List Char} (hahead : ∀ rest, cs ≠ '=' :: rest)
    (hnot : ∀ rest, cs ≠ '!' :: rest) (hangle : ∀ rest, cs ≠ '<' :: rest)
    (hnamed : ∀ rest, cs ≠ 'P' :: rest) :
    readOpening ('?' :: cs) = readFlags [] false false cs :=
  readOpening.eq_8 cs hahead hnot (fun _ => hangle _) (fun _ => hangle _) hangle
    (fun _ => hnamed _) hnamed

theorem readOpening_alike (cs : List Char) :
    Alike Lone (cs.length + 1) (readOpening cs) (readOpening (cs ++ [')'])) := by
  by_cases hquestion : ∃ rest, cs = '?' :: rest
  · obtain ⟨cs, rfl⟩ := hquestion
    by_cases hahead : ∃ rest, cs = '=' :: rest
    · obtain ⟨rest, rfl⟩ := hahead
      exact .fails _ _
    by_cases hnot : ∃ rest, cs = '!' :: rest
    · obtain ⟨rest, rfl⟩ := hnot
      exact .fails _ _
    by_cases hangle : ∃ rest, cs = '<' :: rest
    · obtain ⟨cs, rfl⟩ := hangle
      by_cases hbehind : ∃ rest, cs = '=' :: rest
      · obtain ⟨rest, rfl⟩ := hbehind
        exact .fails _ _
      by_cases hnotBehind : ∃ rest, cs = '!' :: rest
      · obtain ⟨rest, rfl⟩ := hnotBehind
        exact .fails _ _
      · have hbehind := not_exists.mp hbehind
        have hnotBehind := not_exists.mp hnotBehind
        rw [List.cons_append, List.cons_append, readOpening.eq_5 _ hbehind hnotBehind,
          readOpening.eq_5 _ (concat_ne_cons (by decide) hbehind)
            (concat_ne_cons (by decide) hnotBehind)]
        exact (readName_alike cs).mono (by simp only [List.length_cons]; omega)
    by_cases hnamed : ∃ rest, cs = 'P' :: rest
    · obtain ⟨cs, rfl⟩ := hnamed
      by_cases hangle : ∃ rest, cs = '<' :: rest
      · obtain ⟨rest, rfl⟩ := hangle
        exact (readName_alike rest).mono (by simp only [List.length_cons]; omega)
      · have hangle := not_exists.mp hangle
        rw [List.cons_append, List.cons_append, readOpening.eq_7 _ hangle,
          readOpening.eq_7 _ (concat_ne_cons (by decide) hangle)]
        exact .fails _ _
    · have hahead := not_exists.mp hahead
      have hnot := not_exists.mp hnot
      have hangle := not_exists.mp hangle
      have hnamed := not_exists.mp hnamed
      rw [List.cons_append, readOpening_question hahead hnot hangle hnamed,
        readOpening_question (concat_ne_cons (by decide) hahead) (concat_ne_cons (by decide) hnot)
          (concat_ne_cons (by decide) hangle) (concat_ne_cons (by decide) hnamed)]
      exact (readFlags_alike [] false false cs).mono (by simp only [List.length_cons]; omega)
  · have hquestion := not_exists.mp hquestion
    rw [readOpening_of_ne hquestion, readOpening_of_ne (concat_ne_cons (by decide) hquestion)]
    exact .reads (Nat.lt_succ_self _)

/-! ## all tokens -/

theorem next_alike (c : Char) (cs : List Char) :
    Alike Lone (cs.length + 1) (next c cs) (next c (cs ++ [')'])) := by
  have hreads : ∀ token, Alike Lone (cs.length + 1) (.ok (token, cs))
      (.ok (token, cs ++ [')'])) := fun _ => .reads (Nat.lt_succ_self _)
  unfold next
  refine .ite ?_ ?_
  · cases cs with
    | nil => exact .takes _ (.inl rfl)
    | cons d rest =>
      have hescape := readEscape_alike d rest
      rw [List.cons_append]
      generalize readEscape (d :: rest) = x, readEscape (d :: (rest ++ [')'])) = y at hescape ⊢
      cases hescape with
      | @reads escape left hlt =>
        cases escape <;> exact .reads (by rw [List.length_cons]; omega)
      | fails e e' => exact .fails e e'
      | takes e h => exact h.elim
  refine .ite (((readBrackets_alike cs).map Token.set (fun _ h => h.elim)).mono (Nat.le_succ _)) ?_
  refine .ite (readOpening_alike cs) ?_
  iterate 5 refine .ite (hreads _) ?_
  iterate 3 refine .ite (readLazy_alike _ _ cs) ?_
  exact .ite (readCount_alike cs) (hreads _)

theorem next_length {c : Char} {cs rest : List Char} {token : Token}
    (h : next c cs = .ok (token, rest)) : rest.length ≤ cs.length := by
  have halike := next_alike c cs
  rw [h] at halike
  generalize next c (cs ++ [')']) = y at halike
  cases halike with
  | reads hlt => exact Nat.le_of_lt_succ hlt

/-- one unit of fuel for each character is enough -/
theorem scanFrom_eq_scan (fuel : Nat) (cs : List Char) (h : cs.length ≤ fuel) :
    scanFrom fuel cs = scan cs := by
  suffices hsuffices : ∀ fuel fuel' cs, cs.length ≤ fuel → cs.length ≤ fuel' →
      scanFrom fuel cs = scanFrom fuel' cs from hsuffices _ _ _ h le_rfl
  intro fuel
  induction fuel with
  | zero =>
    intro fuel' cs h _
    rw [List.length_eq_zero_iff.mp (Nat.le_zero.mp h), scanFrom, scanFrom]
  | succ fuel ih =>
    intro fuel' cs h h'
    cases cs with
    | nil => rw [scanFrom, scanFrom]
    | cons c rest =>
      obtain ⟨fuel', rfl⟩ : ∃ k, fuel' = k + 1 :=
        ⟨fuel' - 1, by rw [List.length_cons] at h'; omega⟩
      rw [scanFrom, scanFrom]
      cases hnext : next c rest with
      | error e => rfl
      | ok found =>
        obtain ⟨token, left⟩ := found
        have hle := next_length hnext
        rw [List.length_cons] at h h'
        exact congrArg (Except.map _) (ih fuel' left (by omega) (by omega))

theorem scan_of_next {c : Char} {cs rest : List Char} {token : Token}
    (h : next c cs = .ok (token, rest)) : scan (c :: cs) = (scan rest).map (token :: ·) := by
  rw [scan, List.length_cons, scanFrom, h]
  exact congrArg (Except.map _) (scanFrom_eq_scan _ _ (next_length h))

theorem scan_of_next_error {c : Char} {cs : List Char} {e : PatternError}
    (h : next c cs = .error e) : scan (c :: cs) = .error e := by
  rw [scan, List.length_cons, scanFrom, h]

/-- **With a closing parenthesis behind it, a text has its own tokens and one more.**  A text that
cannot be read gets no better by it, unless its last token takes the parenthesis. -/
theorem scan_concat (cs : List Char) :
    (∃ tokens, scan cs = .ok tokens ∧ scan (cs ++ [')']) = .ok (tokens ++ [.closing])) ∨
      (∃ e, scan cs = .error e) ∧ ((∃ e, scan (cs ++ [')']) = .error e) ∨
        ∃ tokens token, scan (cs ++ [')']) = .ok (tokens ++ [token]) ∧ Lone token) := by
  induction hlength : cs.length using Nat.strong_induction_on generalizing cs with
  | _ length ih =>
    cases cs with
    | nil => exact .inl ⟨[], rfl, rfl⟩
    | cons c rest =>
      subst hlength
      have halike := next_alike c rest
      rw [List.cons_append]
      generalize hx : next c rest = x, hy : next c (rest ++ [')']) = y at halike
      cases halike with
      | @reads token left hlt =>
        rw [scan_of_next hx, scan_of_next hy]
        rcases ih left.length hlt left rfl with ⟨tokens, hleft, hleft'⟩ | ⟨⟨e, hleft⟩, hleft'⟩
        · exact .inl ⟨token :: tokens, by rw [hleft]; rfl, by rw [hleft']; rfl⟩
        · refine .inr ⟨⟨e, by rw [hleft]; rfl⟩, ?_⟩
          rcases hleft' with ⟨e', hleft'⟩ | ⟨tokens, last, hleft', hlast⟩
          · exact .inl ⟨e', by rw [hleft']; rfl⟩
          · exact .inr ⟨token :: tokens, last, by rw [hleft']; rfl, hlast⟩
      | fails e e' =>
        exact .inr ⟨⟨e, scan_of_next_error hx⟩, .inl ⟨e', scan_of_next_error hy⟩⟩
      | @takes token e hlone =>
        refine .inr ⟨⟨e, scan_of_next_error hx⟩, .inr ⟨[], token, ?_, hlone⟩⟩
        rw [scan_of_next hy]
        rfl

end Token

end Packrat
