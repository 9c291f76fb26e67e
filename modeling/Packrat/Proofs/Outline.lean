import Packrat.Proofs.Traversals
import Packrat.Report

/-!
# The outline of a tree in a report

A report gives a tree line by line as far as its budget goes, and sums up the rest.  At every point
of the loop, the lines that are written and the nodes that are pending make up the whole tree.

* `Tree.outline`         the nodes of a tree with their depths, in the order of the walk;
* `Report.nodesLeft_eq`  the nodes that are counted are those of the pending outlines;
* `Report.treeLines_eq`  the loop writes the start of the pending outlines, and how much is left;
* `plainLine`, `coloredLine`   a line as it is to be read on paper and on a terminal, character by
                         character, and `Report.nodeLine_plain`, `Report.nodeLine_colored`;
* `outline_accounts`     so every node is accounted for.
-/

namespace Packrat

namespace Tree
variable {τ : Type}

/-- counting folds over as many nodes as a walk visits -/
theorem foldWalk_count (n : Nat) (ts : List (Tree τ)) :
    foldWalk (fun n _ => n + 1) n ts = n + (ts.flatMap walk).length := by
  induction n, ts using foldWalk.induct (f := fun n (_ : Tree τ) => n + 1) with
  | case1 n => rw [foldWalk]; rfl
  | case2 n t ts ih =>
    rw [foldWalk, ih, List.flatMap_append, List.flatMap_cons, walk_eq t]
    simp only [List.length_append, List.length_cons]
    omega

theorem count_eq (t : Tree τ) : t.count = t.walk.length := by
  rw [count, foldWalk_count, List.flatMap_singleton, Nat.zero_add]

/-- the nodes of a tree whose root is at that depth, with their depths and in the order of the
walk -/
def outline (x : Tree τ × Nat) : List (Tree τ × Nat) :=
  x.1.located.map fun y => (y.2, x.2 + y.1.length)

theorem map_locatedFrom (d i : Nat) (ts : List (Tree τ)) :
    (locatedFrom i ts).map (fun y => (y.2, d + y.1.length)) =
      (ts.map fun t => (t, d + 1)).flatMap outline := by
  induction ts generalizing i with
  | nil => simp
  | cons t ts ih =>
    rw [locatedFrom_cons, List.map_append, ih, List.map_cons, List.flatMap_cons, outline,
      List.map_map]
    congr 1
    apply List.map_congr_left
    intro y _
    show (y.2, d + (y.1.length + 1)) = (y.2, d + 1 + y.1.length)
    rw [Nat.add_assoc, Nat.add_comm 1]

/-- **The outline is the root and then the outlines of the children, one level further down.** -/
theorem outline_eq (t : Tree τ) (d : Nat) :
    outline (t, d) = (t, d) :: (t.children.map fun c => (c, d + 1)).flatMap outline := by
  rw [outline, located_eq, List.map_cons, map_locatedFrom]
  rfl

theorem length_outline (x : Tree τ × Nat) : (outline x).length = x.1.count := by
  rw [outline, List.length_map, count_eq, walk_eq_located, List.length_map]

end Tree

namespace Report
variable {τ : Type}

/-! ## the loop -/

theorem foldl_count (n : Nat) (pending : List (Tree τ × Nat)) :
    pending.foldl (fun n p => n + p.1.count) n = n + (pending.flatMap Tree.outline).length := by
  induction pending generalizing n with
  | nil => rfl
  | cons x pending ih =>
    rw [List.foldl_cons, ih, List.flatMap_cons, List.length_append, Tree.length_outline,
      Nat.add_assoc]

theorem nodesLeft_eq (pending : List (Tree τ × Nat)) :
    nodesLeft pending = (pending.flatMap Tree.outline).length := by
  rw [nodesLeft, foldl_count, Nat.zero_add]

variable [Tag τ] (colored : Bool)

/-- the line that sums up what is left of `n` nodes after the budget is used up, if anything is -/
def restLines (budget n : Nat) : List String :=
  if budget < n then ["  " ++ paint colored .dim s!"... +{n - budget} more nodes"] else []

/-- **The loop writes the start of the pending outlines, and then how much is left of them.** -/
theorem treeLines_eq (budget : Nat) (pending : List (Tree τ × Nat)) :
    treeLines colored budget pending =
      ((pending.flatMap Tree.outline).take budget).map (fun x => nodeLine colored x.1 x.2) ++
        restLines colored budget (pending.flatMap Tree.outline).length := by
  fun_induction treeLines colored budget pending with
  | case1 budget => simp [restLines]
  | case2 pending hpending =>
    have hleft : 0 < (pending.flatMap Tree.outline).length := by
      obtain ⟨⟨t, depth⟩, pending, rfl⟩ := List.exists_cons_of_ne_nil hpending
      simp [Tree.outline_eq]
    rw [List.take_zero, List.map_nil, List.nil_append, restLines, if_pos hleft, nodesLeft_eq]
    rfl
  | case3 budget t depth pending ih =>
    rw [ih, List.flatMap_append, List.flatMap_cons, Tree.outline_eq]
    simp [restLines]

/-- for a whole tree, with the addresses of its nodes -/
theorem treeLines_located (budget : Nat) (t : Tree τ) :
    treeLines colored budget [(t, 0)] =
      (t.located.take budget).map (fun x => nodeLine colored x.2 x.1.length) ++
        restLines colored budget t.walk.length := by
  rw [treeLines_eq, List.flatMap_singleton, Tree.length_outline, Tree.count_eq, Tree.outline,
    ← List.map_take, List.map_map]
  simp only [Function.comp_def, Nat.zero_add]

end Report

/-! ## lines -/

section
variable {τ : Type} [Tag τ]

/-- a stretch of blanks -/
def blanks (n : Nat) : String := String.ofList (List.replicate n ' ')

/-- the text, every character on paper -/
def escaped (text : String) : String := String.ofList (text.toList.flatMap escapeChar)

/-- the line of a node so many levels below the root: two blanks and two more for each level, the tag
or an underscore, and for a leaf its text between quotation marks and where it was found -/
def plainLine (level : Nat) (t : Tree τ) : String :=
  blanks (2 + 2 * level) ++ t.tag.elim "_" Tag.label ++ t.capture?.elim "" fun c =>
    " \"" ++ escaped c.text ++ "\" " ++ toString c.span.start ++ ".." ++ toString c.span.stop

/-- the same with the tag in blue, or the underscore dimmed, the text in bold and green, and the offsets
in yellow -/
def coloredLine (level : Nat) (t : Tree τ) : String :=
  blanks (2 + 2 * level) ++
    t.tag.elim "\x1b[2m_\x1b[0m" (fun tag => "\x1b[34m" ++ Tag.label tag ++ "\x1b[0m") ++
    t.capture?.elim "" fun c =>
      " \x1b[1m\x1b[32m\"" ++ escaped c.text ++ "\"\x1b[0m\x1b[0m \x1b[33m" ++
        toString c.span.start ++ ".." ++ toString c.span.stop ++ "\x1b[0m"

theorem toList_blanks (n : Nat) : (blanks n).toList = List.replicate n ' ' := String.toList_ofList

theorem indent_eq (level : Nat) :
    "  " ++ String.join (List.replicate level "  ") = blanks (2 + 2 * level) := by
  have hlevels : (List.replicate level "  ").flatMap String.toList =
      List.replicate (2 * level) ' ' := by
    induction level with
    | zero => rfl
    | succ level ih => rw [List.replicate_succ, List.flatMap_cons, ih]; rfl
  apply String.toList_inj.mp
  rw [String.toList_append, String.toList_join, hlevels, toList_blanks, Nat.add_comm 2]
  rfl

theorem quote_eq (text : String) : quote text = "\"" ++ escaped text ++ "\"" := by
  apply String.toList_inj.mp
  simp [quote, escaped]

theorem escaped_inj {text text' : String} (h : escaped text = escaped text') : text = text' := by
  have hchars : text.toList.flatMap escapeChar = text'.toList.flatMap escapeChar :=
    String.ofList_injective h
  have hclosed : text.toList.flatMap escapeChar ++ ['"'] = text'.toList.flatMap escapeChar ++ ['"'] :=
    congrArg (· ++ ['"']) hchars
  exact String.toList_inj.mp (selfDelimiting_escapeChar.flatMap_inj hclosed).1

theorem Report.nodeLine_plain (t : Tree τ) (level : Nat) :
    nodeLine false t level = plainLine level t := by
  have hdots : toString ".." = ".." := rfl
  rw [plainLine, ← indent_eq]
  apply String.toList_inj.mp
  cases t with
  | leaf tag text span =>
    cases tag <;> simp [nodeLine, tagText, paint, paintBold, Tree.tag, Tree.capture?, quote_eq, hdots]
  | branch tag ts => cases tag <;> simp [nodeLine, tagText, paint, Tree.tag, Tree.capture?]

theorem Report.nodeLine_colored (t : Tree τ) (level : Nat) :
    nodeLine true t level = coloredLine level t := by
  have hdots : toString ".." = ".." := rfl
  rw [coloredLine, ← indent_eq]
  apply String.toList_inj.mp
  cases t with
  | leaf tag text span =>
    cases tag <;>
      simp [nodeLine, tagText, paint, paintBold, Style.code, Tree.tag, Tree.capture?, quote_eq, hdots]
  | branch tag ts =>
    cases tag <;> simp [nodeLine, tagText, paint, Style.code, Tree.tag, Tree.capture?]

theorem Report.restLines_plain (budget n : Nat) : restLines false budget n =
    if budget < n then ["  ... +" ++ toString (n - budget) ++ " more nodes"] else [] := by
  have hline : "  " ++ paint false .dim s!"... +{n - budget} more nodes" =
      "  ... +" ++ toString (n - budget) ++ " more nodes" := by
    have hmore : toString "... +" = "... +" ∧ toString " more nodes" = " more nodes" := ⟨rfl, rfl⟩
    apply String.toList_inj.mp
    simp [paint, hmore]
  rw [restLines, hline]

theorem Report.restLines_colored (budget n : Nat) : restLines true budget n =
    if budget < n then ["  \x1b[2m... +" ++ toString (n - budget) ++ " more nodes\x1b[0m"]
    else [] := by
  have hline : "  " ++ paint true .dim s!"... +{n - budget} more nodes" =
      "  \x1b[2m... +" ++ toString (n - budget) ++ " more nodes\x1b[0m" := by
    have hmore : toString "... +" = "... +" ∧ toString " more nodes" = " more nodes" := ⟨rfl, rfl⟩
    apply String.toList_inj.mp
    simp [paint, Style.code, hmore]
  rw [restLines, hline]

end

/-- **The outline of a tree in a report accounts for every node.**  The first two hundred nodes of
the walk have a line each, in that order, with two blanks for each level of the address at which the
node stands and two more, its tag and, for a leaf, its text and its span.  If there are more nodes, one
more line says how many; if not, there is none.  This holds for what is written on paper and for what
is written on a terminal; and no two texts are written the same way. -/
theorem outline_accounts {τ : Type} [Tag τ] (t : Tree τ) :
    Report.treeLines false Report.lineBudget [(t, 0)] =
      (t.located.take 200).map (fun x => plainLine x.1.length x.2) ++
      (if 200 < t.walk.length then
        ["  ... +" ++ toString (t.walk.length - 200) ++ " more nodes"] else []) ∧
    Report.treeLines true Report.lineBudget [(t, 0)] =
      (t.located.take 200).map (fun x => coloredLine x.1.length x.2) ++
      (if 200 < t.walk.length then
        ["  \x1b[2m... +" ++ toString (t.walk.length - 200) ++ " more nodes\x1b[0m"] else []) ∧
    (∀ text text', escaped text = escaped text' → text = text') ∧
    (t.located.take 200).length = min t.walk.length 200 ∧
    t.located.map Prod.snd = t.walk ∧
    (∀ address u, (address, u) ∈ t.located ↔ t.subtree? address = some u) ∧
    (t.located.map Prod.fst).Pairwise (· < ·) := by
  have hlength : t.located.length = t.walk.length := by
    rw [t.walk_eq_located, List.length_map]
  refine ⟨?_, ?_, fun _ _ => escaped_inj, ?_, t.walk_eq_located.symm, fun _ _ => Tree.mem_located,
    t.located_sorted⟩
  · simp only [Report.treeLines_located, Report.nodeLine_plain, Report.restLines_plain,
      Report.lineBudget]
  · simp only [Report.treeLines_located, Report.nodeLine_colored, Report.restLines_colored,
      Report.lineBudget]
  · rw [List.length_take, hlength, Nat.min_comm]

namespace Boxes

/-- an array of so many numbers -/
def row (n : Nat) : Tree JsonTag :=
  .branch (some .array) (List.replicate n (.leaf (some .number) "7" ⟨3, 4⟩))

/-- an array with a captured number and an untyped capture in it, on paper and on a terminal; and a
row of numbers that is too long by five nodes -/
theorem outline_accounts_of_boxes :
    Report.treeLines false Report.lineBudget
        [(.branch (some .array) [tree ⟨1, 2⟩, .leaf none "a\"b" ⟨5, 8⟩], 0)] =
      ["  Array", "    Array", "      Number \"1\" 1..2", "      Array", "        Null",
        "    _ \"a\\\"b\" 5..8"] ∧
    Report.treeLines true Report.lineBudget [((.leaf none "a\"b" ⟨5, 8⟩ : Tree JsonTag), 0)] =
      ["  \x1b[2m_\x1b[0m \x1b[1m\x1b[32m\"a\\\"b\"\x1b[0m\x1b[0m \x1b[33m5..8\x1b[0m"] ∧
    Report.treeLines false Report.lineBudget [(row 204, 0)] =
      "  Array" :: List.replicate 199 "    Number \"7\" 3..4" ++ ["  ... +5 more nodes"] ∧
    Report.treeLines false Report.lineBudget [(row 199, 0)] =
      "  Array" :: List.replicate 199 "    Number \"7\" 3..4" := by
  refine ⟨(outline_accounts _).1.trans ?_, (outline_accounts _).2.1.trans ?_,
    (outline_accounts _).1.trans ?_, (outline_accounts _).1.trans ?_⟩
  all_goals decide +kernel

end Boxes

end Packrat
