import Packrat.Parse
import Packrat.Tree.Render
import Packrat.Tree.Walk

/-!
# Reports of a parse

* `Style`              how a stretch of a report stands out on a terminal;
* `Report.treeLines`   a tree, one line for each node, as far as a budget of lines goes;
* `Report.lines`       the report of a parse;
* `Report.render`      the same as one text.

The elapsed time is given as text, since nothing else in a report depends on the clock.
-/

namespace Packrat

inductive Style where
  | bold
  | dim
  | red
  | green
  | yellow
  | blue
  | cyan
  | gray
deriving DecidableEq

/-- the number by which a terminal knows the style -/
def Style.code : Style → String
  | .bold => "1"
  | .dim => "2"
  | .red => "31"
  | .green => "32"
  | .yellow => "33"
  | .blue => "34"
  | .cyan => "36"
  | .gray => "90"

namespace Report

/-- the number of lines for a tree before the rest is summed up -/
def lineBudget : Nat := 200

section
variable (colored : Bool)

/-- a stretch in some style, if styles are wanted at all -/
def paint (style : Style) (s : String) : String :=
  if colored then "\x1b[" ++ style.code ++ "m" ++ s ++ "\x1b[0m" else s

/-- a stretch in bold and in a colour -/
def paintBold (style : Style) (s : String) : String := paint colored .bold (paint colored style s)

def heading (title : String) : String := "\n" ++ paint colored .gray ("━━━ " ++ title ++ " ━━━")

section
variable {τ : Type} [Tag τ]

def tagText : Option τ → String
  | none => paint colored .dim "_"
  | some tag => paint colored .blue (Tag.label tag)

/-- the line of a node at that depth below the root -/
def nodeLine (t : Tree τ) (depth : Nat) : String :=
  let indent := "  " ++ String.join (List.replicate depth "  ")
  match t with
  | .leaf tag text span =>
    indent ++ tagText colored tag ++ " " ++ paintBold colored .green (quote text) ++ " " ++
      paint colored .yellow s!"{span.start}..{span.stop}"
  | .branch tag _ => indent ++ tagText colored tag

/-- the number of nodes of trees that are given with their depths -/
def nodesLeft (pending : List (Tree τ × Nat)) : Nat :=
  pending.foldl (fun n p => n + p.1.count) 0

/-- the lines of the pending trees, parents before children; when the budget is used up, one line
sums up the nodes that are left -/
def treeLines : Nat → List (Tree τ × Nat) → List String
  | _, [] => []
  | 0, pending => ["  " ++ paint colored .dim s!"... +{nodesLeft pending} more nodes"]
  | budget + 1, (t, depth) :: pending =>
    nodeLine colored t depth ::
      treeLines budget (t.children.map (fun c => (c, depth + 1)) ++ pending)

/-- the issues of the grammar, each with the parser of its rule -/
def issueLines (g : Graph τ) (detail : PatternError → String) (issues : List Issue) :
    List String :=
  if issues.isEmpty then []
  else
    heading colored "Grammar Issues" :: issues.flatMap fun issue =>
      ("  " ++ paint colored (if issue.isFatal then .red else .yellow) "•" ++ " " ++
          issue.message detail) ::
        match ((g.ruleIndex? issue.rule).bind g.root?).bind (g.nodes[·]?) with
        | none => []
        | some node =>
          ["    " ++ paint colored .dim (issue.rule ++ " ::= " ++ node.describe)]

end

def errorLines (detail : PatternError → String) (e : ParseError) : List String :=
  ["  " ++ paintBold colored .red (e.message detail)] ++
    (match e.position? with
    | none => []
    | some p =>
      ["  " ++ paint colored .dim "at" ++
        s!" line {p.line}, column {p.column} (byte {p.offset})"]) ++
    match e with
    | .noMatch _ _ _ =>
      ["\n" ++ paint colored .yellow "Possible reasons:",
        "  • The input has a syntax error near the furthest position",
        "  • The wrong grammar or entry rule was selected (see --grammar, --rule)",
        "\n" ++ paint colored .dim
          "  Tip: Set RUST_LOG=trellis=trace to see every rule entry and exit"]
    | _ => []

def counterLines (c : Counters) : List String :=
  let dim := paint colored .dim
  let number (style : Style) (n : Nat) := paint colored style (toString n)
  ["  " ++ dim "steps:" ++ " " ++ number .cyan c.steps ++ "  " ++ dim "resumes:" ++ " " ++
      number .cyan c.resumes ++ "  " ++ dim "leaf matches:" ++ " " ++ number .green c.leafMatches ++
      s!"/{c.leafAttempts}",
    "  " ++ dim "memo hits:" ++ " " ++ number .green c.memoHits ++ "  " ++ dim "misses:" ++ " " ++
      number .yellow c.memoMisses ++ "  " ++ dim "entries:" ++ s!" {c.memoEntries}  " ++
      dim "recursion cuts:" ++ s!" {c.recursionCuts}",
    "  " ++ dim "max stacks:" ++ " work " ++ number .blue c.maxWork ++ "  frames " ++
      number .blue c.maxFrames ++ "  results " ++ number .blue c.maxResults] ++
    if c.zeroWidthStops = 0 then []
    else
      ["  " ++ paint colored .yellow "zero-width repetition stops:" ++ s!" {c.zeroWidthStops}"]

def lines {τ : Type} [Tag τ] (g : Graph τ) (detail : PatternError → String) (text : String)
    (i : Inspection τ) (elapsed : String) : List String :=
  let title := "⚙  Parsing: \"" ++ preview text.toList ++ "\" with rule `" ++ i.rule ++ "`"
  let result := match i.outcome.result with
    | .ok t => heading colored "Tree" :: treeLines colored lineBudget [(t, 0)]
    | .error e => heading colored "Error" :: errorLines colored detail e
  ("\n" ++ paintBold colored .cyan title) :: issueLines colored g detail i.issues ++ result ++
    (heading colored "Engine" :: counterLines colored i.outcome.counters) ++
    [heading colored "Timing",
      "  Total: " ++ paint colored .green elapsed ++ "  │  Consumed: " ++
        paint colored .dim s!"{i.outcome.consumed}/{i.length} bytes",
      ""]

def render {τ : Type} [Tag τ] (g : Graph τ) (detail : PatternError → String) (text : String)
    (i : Inspection τ) (elapsed : String) : String :=
  String.join ((lines colored g detail text i elapsed).map (· ++ "\n"))

end

end Report

end Packrat
