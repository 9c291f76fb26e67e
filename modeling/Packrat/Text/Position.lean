import Packrat.Text.Place

/-!
# Lines, columns and previews

* `cut?`             a text cut at a byte offset, if no character straddles it;
* `Position`         an offset with its line and column, both counted from one;
* `Position.at?`     the position of an offset;
* `previewAt`        the start of what follows an offset, on one line.
-/

namespace Packrat

/-- `text` cut `n` bytes after its start, or at its end if it is shorter: the characters passed,
latest first, in front of `passed`, and those still to come.  There is no such cut inside a
character. -/
def cutAfter? (passed : List Char) : List Char → Nat → Option (List Char × List Char)
  | [], _ => some (passed, [])
  | c :: rest, n =>
    if n = 0 then some (passed, c :: rest)
    else if n < c.utf8Size then none
    else cutAfter? (c :: passed) rest (n - c.utf8Size)

/-- `text` cut at the byte offset `n`, the first part in reverse -/
def cut? (text : List Char) (n : Nat) : Option (List Char × List Char) := cutAfter? [] text n

/-- a byte offset with its line and column; columns count characters -/
structure Position where
  offset : Nat
  line : Nat
  column : Nat
deriving DecidableEq

namespace Position

/-- the position of the byte offset `n` in `text`; an offset beyond the end counts as the end, and
one inside a character has no position -/
def at? (text : List Char) (n : Nat) : Option Position :=
  match cut? text n with
  | none => none
  | some (passed, _) =>
    some ⟨min n (byteLength text), passed.count '\n' + 1, (passed.takeWhile (· ≠ '\n')).length + 1⟩

def render (p : Position) : String := s!"{p.line}:{p.column}"

end Position

def previewLength : Nat := 24

/-- a line feed as its escape sequence, so that a preview stays on one line -/
def previewChar (c : Char) : List Char := if c = '\n' then ['\\', 'n'] else [c]

def preview (rest : List Char) : String :=
  String.ofList ((rest.take previewLength).flatMap previewChar) ++
    if (rest.drop previewLength).isEmpty then "" else "…"

/-- the preview of `text` from the byte offset `n`; empty inside a character -/
def previewAt (text : List Char) (n : Nat) : String :=
  match cut? text n with
  | none => ""
  | some (_, rest) => preview rest

end Packrat
