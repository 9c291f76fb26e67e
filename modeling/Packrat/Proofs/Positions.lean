import Packrat.Proofs.Boundary

/-!
# Positions count characters

A position is found by three scans: the text is cut at a byte offset, the line ends before the cut
are counted, and so are the characters after the last of them.  It is the same as counting character
by character from the start.

* `Position.next`, `Position.after`   the position after one more character, and after some from
                         the start;
* `cut?_eq_some_iff`     where a text is cut, also by an offset beyond its end;
* `Position.at?_eq_some_iff`   a position is that after the characters before the offset;
* `isValid_iff`          an offset is a boundary if it is the length of what stands before it;
* `Position.Before`      on an earlier line, or earlier on the same line;
* `positions_counted`    what follows for the positions and previews of a text.
-/

namespace Packrat

/-! ## character by character -/

namespace Position

/-- the position after one more character -/
def next (p : Position) (c : Char) : Position :=
  if c = '\n' then ⟨p.offset + c.utf8Size, p.line + 1, 1⟩
  else ⟨p.offset + c.utf8Size, p.line, p.column + 1⟩

/-- the position after the first characters of a text -/
def after (before : List Char) : Position := before.foldl next ⟨0, 1, 1⟩

theorem after_concat (before : List Char) (c : Char) :
    after (before ++ [c]) = (after before).next c := by
  rw [after, List.foldl_append]
  rfl

/-- **Counting line ends and characters comes to the same as going on one by one.** -/
theorem after_reverse (passed : List Char) :
    after passed.reverse = ⟨byteLength passed.reverse, passed.count '\n' + 1,
      (passed.takeWhile (· ≠ '\n')).length + 1⟩ := by
  induction passed with
  | nil => rfl
  | cons c passed ih =>
    rw [List.reverse_cons, after_concat, ih, next, byteLength_append]
    split
    · next hc => simp [hc]
    · next hc => simp [hc]

theorem offset_after (before : List Char) : (after before).offset = byteLength before := by
  have h := congrArg offset (after_reverse before.reverse)
  rwa [List.reverse_reverse] at h

/-- on an earlier line, or on the same one and earlier there -/
def Before (p q : Position) : Prop := p.line < q.line ∨ p.line = q.line ∧ p.column < q.column

theorem Before.ne {p q : Position} (h : p.Before q) : (p.line, p.column) ≠ (q.line, q.column) := by
  intro heq
  obtain ⟨hline, hcolumn⟩ := Prod.mk.inj heq
  simp only [Before] at h
  omega

theorem Before.trans {p q r : Position} (hpq : p.Before q) (hqr : q.Before r) : p.Before r := by
  simp only [Before] at *
  omega

theorem before_next (p : Position) (c : Char) : p.Before (p.next c) := by
  rw [next]
  split
  · exact .inl (Nat.lt_succ_self _)
  · exact .inr ⟨rfl, Nat.lt_succ_self _⟩

/-- further on in the text is further on in lines and columns -/
theorem after_before (before : List Char) {more : List Char} (h : more ≠ []) :
    (after before).Before (after (before ++ more)) := by
  induction more generalizing before with
  | nil => exact absurd rfl h
  | cons c more ih =>
    have hnext : (after before).Before (after (before ++ [c])) := by
      rw [after_concat]
      exact before_next _ c
    rw [List.append_cons]
    cases more with
    | nil =>
      rw [List.append_nil]
      exact hnext
    | cons d more => exact hnext.trans (ih (before ++ [c]) (by simp))

end Position

/-! ## cuts -/

theorem min_byteLength_append (before rest : List Char) :
    min (byteLength before) (byteLength (before ++ rest)) = byteLength before := by
  rw [byteLength_append]
  omega

theorem eq_nil_of_byteLength {cs : List Char} (h : byteLength cs = 0) : cs = [] := by
  cases cs with
  | nil => rfl
  | cons c cs =>
    have hpos : 0 < c.utf8Size := c.utf8Size_pos
    rw [byteLength_cons] at h
    omega

theorem cutAfter?_eq_some_iff {seen text : List Char} {n : Nat} {passed rest : List Char} :
    cutAfter? seen text n = some (passed, rest) ↔
      ∃ before, text = before ++ rest ∧ passed = before.reverse ++ seen ∧
        min n (byteLength text) = byteLength before := by
  induction text generalizing seen n with
  | nil =>
    rw [cutAfter?]
    constructor
    · intro h
      cases h
      exact ⟨[], rfl, rfl, Nat.min_zero n⟩
    · rintro ⟨before, htext, rfl, -⟩
      obtain ⟨rfl, rfl⟩ := List.append_eq_nil_iff.mp htext.symm
      rfl
  | cons c text ih =>
    have hpos : 0 < c.utf8Size := c.utf8Size_pos
    rw [cutAfter?, byteLength_cons]
    -- what stands before the cut is nothing, or it begins with the character
    split
    · next hzero =>
      constructor
      · intro h
        cases h
        exact ⟨[], rfl, rfl, by rw [hzero, Nat.zero_min]; rfl⟩
      · rintro ⟨before, htext, rfl, hlength⟩
        rw [hzero, Nat.zero_min] at hlength
        obtain rfl := eq_nil_of_byteLength hlength.symm
        rw [htext]
        rfl
    · next hzero =>
      split
      · next hinside =>
        constructor
        · intro h
          cases h
        · rintro ⟨before, htext, -, hlength⟩
          cases before with
          | nil =>
            rw [byteLength_nil] at hlength
            omega
          | cons d before =>
            cases htext
            rw [byteLength_cons] at hlength
            omega
      · next hinside =>
        rw [ih]
        constructor
        · rintro ⟨before, rfl, rfl, hlength⟩
          refine ⟨c :: before, rfl, by simp, ?_⟩
          rw [byteLength_cons, ← hlength]
          omega
        · rintro ⟨before, htext, rfl, hlength⟩
          cases before with
          | nil =>
            rw [byteLength_nil] at hlength
            omega
          | cons d before =>
            cases htext
            rw [byteLength_cons] at hlength
            exact ⟨before, rfl, by simp, by omega⟩

/-- **A text is cut after as many bytes as it has, at most.** -/
theorem cut?_eq_some_iff {text : List Char} {n : Nat} {passed rest : List Char} :
    cut? text n = some (passed, rest) ↔
      text = passed.reverse ++ rest ∧ min n (byteLength text) = byteLength passed.reverse := by
  rw [cut?, cutAfter?_eq_some_iff]
  constructor
  · rintro ⟨before, htext, hpassed, hlength⟩
    rw [List.append_nil] at hpassed
    rw [hpassed, List.reverse_reverse]
    exact ⟨htext, hlength⟩
  · rintro ⟨htext, hlength⟩
    exact ⟨passed.reverse, htext, by simp, hlength⟩

theorem cut?_of_append {text before rest : List Char} {n : Nat} (htext : text = before ++ rest)
    (hlength : min n (byteLength text) = byteLength before) :
    cut? text n = some (before.reverse, rest) := by
  rw [cut?_eq_some_iff, List.reverse_reverse]
  exact ⟨htext, hlength⟩

/-- **A position is that after the characters before the offset.** -/
theorem Position.at?_eq_some_iff {text : List Char} {n : Nat} {p : Position} :
    Position.at? text n = some p ↔
      ∃ before rest, text = before ++ rest ∧ min n (byteLength text) = byteLength before ∧
        p = Position.after before := by
  constructor
  · intro h
    rw [Position.at?] at h
    split at h
    · cases h
    · next passed rest hcut =>
      obtain ⟨htext, hlength⟩ := cut?_eq_some_iff.mp hcut
      cases h
      refine ⟨passed.reverse, rest, htext, hlength, ?_⟩
      rw [Position.after_reverse, hlength]
  · rintro ⟨before, rest, htext, hlength, rfl⟩
    have hafter := Position.after_reverse before.reverse
    rw [List.reverse_reverse] at hafter
    rw [Position.at?, cut?_of_append htext hlength, hafter, hlength]

theorem Position.at?_append (before rest : List Char) :
    Position.at? (before ++ rest) (byteLength before) = some (Position.after before) := by
  rw [Position.at?_eq_some_iff]
  exact ⟨before, rest, rfl, min_byteLength_append before rest, rfl⟩

/-- **One more character leads to the next position.** -/
theorem Position.at?_step (before rest : List Char) (c : Char) :
    Position.at? (before ++ c :: rest) (byteLength before + c.utf8Size) =
      some ((Position.after before).next c) := by
  have hafter := Position.at?_append (before ++ [c]) rest
  rw [Position.after_concat, byteLength_append, byteLength_cons, byteLength_nil, Nat.add_zero,
    List.append_assoc] at hafter
  exact hafter

/-- an offset is a boundary of characters if it is the length of what stands before it -/
theorem isValid_iff {text : String} {n : Nat} :
    String.Pos.Raw.IsValid text ⟨n⟩ ↔
      ∃ before rest, text.toList = before ++ rest ∧ n = byteLength before := by
  rw [String.Pos.Raw.isValid_iff_exists_append]
  constructor
  · rintro ⟨s, t, rfl, hn⟩
    refine ⟨s.toList, t.toList, String.toList_append, ?_⟩
    rw [← utf8ByteSize_ofList, String.ofList_toList]
    exact congrArg String.Pos.Raw.byteIdx hn
  · rintro ⟨before, rest, htext, rfl⟩
    refine ⟨String.ofList before, String.ofList rest, ?_, ?_⟩
    · rw [← String.ofList_append, ← htext, String.ofList_toList]
    · rw [String.rawEndPos, utf8ByteSize_ofList]

theorem byteLength_toList (text : String) : byteLength text.toList = text.utf8ByteSize := by
  rw [← utf8ByteSize_ofList, String.ofList_toList]

/-- **Boundaries of characters have positions, and other offsets have none.** -/
theorem Position.isSome_at?_iff {text : String} {n : Nat} :
    (Position.at? text.toList n).isSome ↔
      String.Pos.Raw.IsValid text ⟨min n text.utf8ByteSize⟩ := by
  rw [Option.isSome_iff_exists, isValid_iff, ← byteLength_toList]
  constructor
  · rintro ⟨p, hp⟩
    obtain ⟨before, rest, htext, hlength, -⟩ := Position.at?_eq_some_iff.mp hp
    exact ⟨before, rest, htext, hlength⟩
  · rintro ⟨before, rest, htext, hlength⟩
    exact ⟨_, Position.at?_eq_some_iff.mpr ⟨before, rest, htext, hlength, rfl⟩⟩

/-- an offset beyond the end counts as the end -/
theorem Position.at?_min (text : List Char) (n : Nat) :
    Position.at? text n = Position.at? text (min n (byteLength text)) := by
  apply Option.ext
  intro p
  have hmin : min (min n (byteLength text)) (byteLength text) = min n (byteLength text) := by omega
  rw [Position.at?_eq_some_iff, Position.at?_eq_some_iff, hmin]

/-- **Later boundaries have later positions.** -/
theorem Position.before_of_lt {text : List Char} {m n : Nat} {p q : Position} (hmn : m < n)
    (hn : n ≤ byteLength text) (hp : Position.at? text m = some p)
    (hq : Position.at? text n = some q) : p.Before q := by
  obtain ⟨before, rest, htext, hbefore, rfl⟩ := Position.at?_eq_some_iff.mp hp
  obtain ⟨before', rest', htext', hbefore', rfl⟩ := Position.at?_eq_some_iff.mp hq
  -- both stand at the start of the text, and the first is shorter
  rcases List.append_eq_append_iff.mp (htext.symm.trans htext') with ⟨more, rfl, -⟩ | ⟨more, rfl, -⟩
  · refine Position.after_before before ?_
    rintro rfl
    rw [List.append_nil] at hbefore'
    omega
  · rw [byteLength_append] at hbefore
    omega

/-! ## previews -/

/-- **A preview stays on one line.** -/
theorem not_mem_preview (rest : List Char) : '\n' ∉ (preview rest).toList := by
  have hchar : ∀ c : Char, '\n' ∉ previewChar c := by
    intro c
    rw [previewChar]
    split
    · decide
    · next hc => simpa [eq_comm] using hc
  have hmore : ∀ b : Bool, '\n' ∉ (if b then "" else "…").toList := by decide
  rw [preview, String.toList_append, String.toList_ofList, List.mem_append, List.mem_flatMap]
  rintro (⟨c, -, hc⟩ | hend)
  · exact hchar c hc
  · exact hmore _ hend

theorem previewAt_append (before rest : List Char) :
    previewAt (before ++ rest) (byteLength before) = preview rest := by
  rw [previewAt, cut?_of_append rfl (min_byteLength_append before rest)]

theorem not_mem_previewAt (text : List Char) (n : Nat) : '\n' ∉ (previewAt text n).toList := by
  rw [previewAt]
  split
  · decide
  · exact not_mem_preview _

/-- **The position of an offset is what counting characters from the start comes to.**  There is one
exactly if the offset, or the end for an offset beyond it, is a boundary of characters.  The first
is line one, column one; a line end leads to the first column of the next line, and any other
character to the next column.  So of two boundaries the earlier one has the earlier position, and no
two have the same.  There is a preview from every offset, none of them with a line end in it, and
from a boundary on it shows what follows. -/
theorem positions_counted (text : String) :
    (∀ n, (Position.at? text.toList n).isSome ↔
      String.Pos.Raw.IsValid text ⟨min n text.utf8ByteSize⟩) ∧
    (∀ n, Position.at? text.toList n = Position.at? text.toList (min n text.utf8ByteSize)) ∧
    Position.at? text.toList 0 = some ⟨0, 1, 1⟩ ∧
    (∀ (before rest : String) (c : Char), text = before ++ String.singleton c ++ rest →
      ∃ line column, Position.at? text.toList before.utf8ByteSize =
          some ⟨before.utf8ByteSize, line, column⟩ ∧
        Position.at? text.toList (before.utf8ByteSize + c.utf8Size) =
          some (if c = '\n' then ⟨before.utf8ByteSize + c.utf8Size, line + 1, 1⟩
            else ⟨before.utf8ByteSize + c.utf8Size, line, column + 1⟩)) ∧
    (∀ m n p q, m ≤ text.utf8ByteSize → n ≤ text.utf8ByteSize →
      Position.at? text.toList m = some p → Position.at? text.toList n = some q →
      (m < n → p.line < q.line ∨ p.line = q.line ∧ p.column < q.column) ∧
      (m ≠ n → (p.line, p.column) ≠ (q.line, q.column))) ∧
    (∀ n, '\n' ∉ (previewAt text.toList n).toList) ∧
    ∀ before rest : String, text = before ++ rest →
      previewAt text.toList before.utf8ByteSize = preview rest.toList := by
  have hlength := byteLength_toList text
  refine ⟨fun n => Position.isSome_at?_iff, fun n => ?_, ?_, ?_, ?_,
    not_mem_previewAt text.toList, ?_⟩
  · rw [← hlength]
    exact Position.at?_min text.toList n
  · exact Position.at?_append [] text.toList
  · rintro before rest c rfl
    have htext : (before ++ String.singleton c ++ rest).toList =
        before.toList ++ c :: rest.toList := by
      simp
    refine ⟨(Position.after before.toList).line, (Position.after before.toList).column, ?_, ?_⟩
    · rw [htext, ← byteLength_toList before, Position.at?_append, ← Position.offset_after]
    · rw [htext, ← byteLength_toList before, Position.at?_step, Position.next,
        Position.offset_after]
  · intro m n p q hm hn hp hq
    rw [← hlength] at hm hn
    refine ⟨fun hmn => Position.before_of_lt hmn hn hp hq, fun hne => ?_⟩
    rcases Nat.lt_or_gt_of_ne hne with hlt | hgt
    · exact (Position.before_of_lt hlt hn hp hq).ne
    · exact (Position.before_of_lt hgt hm hq hp).ne.symm
  · rintro before rest rfl
    rw [String.toList_append, ← byteLength_toList before]
    exact previewAt_append before.toList rest.toList

namespace Accents

/-- two lines with characters of one, two and three bytes: the snowman begins at offset three, and
there is no position inside it -/
theorem positions_counted_of_snowman :
    Position.at? "é\n☃b".toList 4 = none ∧
      ∃ p q, Position.at? "é\n☃b".toList 3 = some p ∧ Position.at? "é\n☃b".toList 6 = some q ∧
        p.Before q ∧ Position.at? "é\n☃b".toList 9 = some ⟨7, 2, 3⟩ ∧
        previewAt "é\n☃b".toList 0 = "é\\n☃b" := by
  obtain ⟨-, hend, -, hstep, horder, -, hpreview⟩ := positions_counted "é\n☃b"
  obtain ⟨line, column, hp, hq⟩ := hstep "é\n" "b" '☃' rfl
  obtain ⟨hbefore, -⟩ := horder 3 6 _ _ (by decide) (by decide) hp hq
  refine ⟨by decide, _, _, hp, hq, hbefore (by decide), ?_, ?_⟩
  · rw [hend]
    decide
  · exact (hpreview "" "é\n☃b" rfl).trans (by decide)

end Accents

end Packrat
