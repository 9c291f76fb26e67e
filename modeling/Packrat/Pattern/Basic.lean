import Packrat.Pattern.Matching
import Packrat.Pattern.Token

/-!
# Patterns

* `Expr.ofTokens`       the expression that a list of tokens spells: groups are kept on a stack while
                        they are open;
* `Pattern`             an expression with the text it was read from;
* `Pattern.compile`     reads a pattern;
* `Pattern.anchored`    reads a pattern that is meant to match at the start of a text;
* `Pattern.endAt?`      where the preferred match from a place ends;
* `Pattern.matchAt?`    that match.
-/

namespace Packrat

structure Flags where
  ignoreCase : Bool := false
  multiLine : Bool := false
  dotAll : Bool := false
  swapGreed : Bool := false
deriving DecidableEq

namespace Flags

def switch (f : Flags) : Flag × Bool → Flags
  | (.ignoreCase, on) => { f with ignoreCase := on }
  | (.multiLine, on) => { f with multiLine := on }
  | (.dotAll, on) => { f with dotAll := on }
  | (.swapGreed, on) => { f with swapGreed := on }
  | (.unicode, _) => f

def change (f : Flags) (changes : List (Flag × Bool)) : Flags := changes.foldl switch f

end Flags

namespace Expr

/-- the part of a group that has been read: alternatives that are complete, and the items of the
one being read, each latest first.  A change of flags is an item that cannot be repeated. -/
structure Unfinished where
  alternatives : List Expr := []
  items : List (Option Expr) := []

namespace Unfinished

def push (p : Unfinished) (e : Expr) : Unfinished := { p with items := some e :: p.items }

/-- a change of flags -/
def mark (p : Unfinished) : Unfinished := { p with items := none :: p.items }

/-- the items of the alternative being read, as one expression -/
def current (p : Unfinished) : Expr := all (p.items.reverse.filterMap id)

def split (p : Unfinished) : Unfinished := ⟨p.current :: p.alternatives, []⟩

def finish (p : Unfinished) : Expr := oneOf (p.current :: p.alternatives).reverse

end Unfinished

/-- a group that encloses the one being read: its number if it keeps its text, the flags to return
to, and what was read before the group -/
structure Enclosing where
  index : Option Nat
  flags : Flags
  outer : Unfinished

/-- the group as an expression -/
def close (index : Option Nat) (e : Expr) : Expr :=
  match index with
  | none => e
  | some i => .group i e

/-- the expression of a token that stands for a character or a condition -/
def atom (f : Flags) : Token → Option Expr
  | .char c => some (.set (.one c) f.ignoreCase)
  | .set s => some (.set s f.ignoreCase)
  | .dot => some (.set (if f.dotAll then .any else .compl (.one '\n')) false)
  | .caret => some (.assert (if f.multiLine then .lineStart else .textStart))
  | .dollar => some (.assert (if f.multiLine then .lineEnd else .textEnd))
  | .assert a => some (.assert a)
  | _ => none

/-- the expression that the tokens spell.  `groups` counts the groups that keep their text, `names`
are those in use, `enclosing` the enclosing groups from the innermost out, `here` the group being read. -/
def ofTokensIn (groups : Nat) (names : List String) (enclosing : List Enclosing) (f : Flags)
    (here : Unfinished) : List Token → Except PatternError Expr
  | [] =>
    match enclosing with
    | [] => .ok here.finish
    | _ :: _ => .error .unclosedGroup
  | .closing :: tokens =>
    match enclosing with
    | [] => .error .unopenedGroup
    | g :: enclosing =>
      ofTokensIn groups names enclosing g.flags (g.outer.push (close g.index here.finish)) tokens
  | .bar :: tokens => ofTokensIn groups names enclosing f here.split tokens
  | .flags changes :: tokens => ofTokensIn groups names enclosing (f.change changes) here.mark tokens
  | .opening (.plain changes) :: tokens =>
    ofTokensIn groups names (⟨none, f, here⟩ :: enclosing) (f.change changes) {} tokens
  | .opening (.capturing none) :: tokens =>
    ofTokensIn (groups + 1) names (⟨some (groups + 1), f, here⟩ :: enclosing) f {} tokens
  | .opening (.capturing (some name)) :: tokens =>
    if names.contains name then .error (.repeatedGroupName name)
    else
      ofTokensIn (groups + 1) (name :: names) (⟨some (groups + 1), f, here⟩ :: enclosing) f {} tokens
  | .count least most lazy :: tokens =>
    match here.items with
    | some e :: items =>
      ofTokensIn groups names enclosing f
        { here with items := some (times (lazy == f.swapGreed) e least most) :: items } tokens
    | _ => .error .nothingToRepeat
  | token :: tokens =>
    match atom f token with
    | none => ofTokensIn groups names enclosing f here tokens
    | some e => ofTokensIn groups names enclosing f (here.push e) tokens

def ofTokens (tokens : List Token) : Except PatternError Expr := ofTokensIn 0 [] [] {} {} tokens

end Expr

/-- a pattern: the text it was read from and the expression it stands for -/
structure Pattern where
  source : String
  expr : Expr
deriving DecidableEq

namespace Pattern

def compile (source : String) : Except PatternError Pattern :=
  match Token.scan source.toList with
  | .error e => .error e
  | .ok tokens =>
    match Expr.ofTokens tokens with
    | .error e => .error e
    | .ok expr => .ok ⟨source, expr⟩

/-- the text of a pattern that matches at the start of a text what `source` matches -/
def anchoredSource (source : String) : String := "\\A(?:" ++ source ++ ")"

/-- the pattern that `source` spells, put behind the start of the text.  It is the text that is put
there, so a closing parenthesis in `source` can end the group early. -/
def anchored (source : String) : Except PatternError Pattern := compile (anchoredSource source)

/-- where the preferred match from `p` ends; nothing before `p` counts -/
def endAt? (pattern : Pattern) (p : Place) : Option Place :=
  (pattern.expr.firstEnd? p).map Spot.place

/-- the preferred match from `p`, and where it ends -/
def matchAt? (pattern : Pattern) (p : Place) : Option (Match × Place) :=
  match pattern.expr.firstEnd? p with
  | none => none
  | some s =>
    some (⟨p.textTo s.place, p.spanTo s.place,
      (List.range pattern.expr.groupCount).map fun i => s.groupText (i + 1)⟩, s.place)

/-- whether the pattern matches the empty text -/
def isNullable (pattern : Pattern) : Bool := (pattern.expr.firstEnd? (Place.first [])).isSome

end Pattern

end Packrat
