import Packrat.Pattern.Basic

/-!
# Reading tokens past ignorable text

* `skipOne?`          the place after one stretch of ignorable text;
* `skipAll`           the place after all ignorable text;
* `Reader`            where a parse stands, and how far any match has come;
* `Reader.look?`      reads what a pattern matches, here or after ignorable text;
* `Reader.atEnd`      whether only ignorable text is left.

A match has to begin at the place itself.  Ignorable text is skipped one stretch at a time, and the
pattern is tried again after each, so a pattern may also match what could have been skipped.
-/

namespace Packrat

/-- the place after the first ignorable pattern, in the order given, that matches at `p` and moves
on -/
def skipOne? (ignorables : List Pattern) (p : Place) : Option Place :=
  ignorables.findSome? fun pattern =>
    match pattern.endAt? p with
    | none => none
    | some q => if p.offset < q.offset then some q else none

/-- skips as often as possible, at most once for each character of `left` -/
def skipAlong (ignorables : List Pattern) : List Char → Place → Place
  | [], p => p
  | _ :: left, p =>
    match skipOne? ignorables p with
    | none => p
    | some q => skipAlong ignorables left q

/-- the place after all ignorable text -/
def skipAll (ignorables : List Pattern) (p : Place) : Place := skipAlong ignorables p.rest p

/-- the match of the pattern at `p`, or else after ignorable text; each skip passes a character, so
those of `left` bound their number -/
def lookAlong? (ignorables : List Pattern) (pattern : Pattern) :
    List Char → Place → Option (Match × Place)
  | [], p => pattern.matchAt? p
  | _ :: left, p =>
    match pattern.matchAt? p with
    | some found => some found
    | none =>
      match skipOne? ignorables p with
      | none => none
      | some q => lookAlong? ignorables pattern left q

/-- where a parse stands, and the furthest offset that any match has reached -/
structure Reader where
  place : Place
  furthest : Nat

namespace Reader

def first (text : List Char) : Reader := ⟨Place.first text, 0⟩

def offset (r : Reader) : Nat := r.place.offset

def moveTo (r : Reader) (p : Place) : Reader := { r with place := p }

/-- reads what the pattern matches, here or after ignorable text; there is no new reader if it does
not match -/
def look? (ignorables : List Pattern) (pattern : Pattern) (r : Reader) : Option (Match × Reader) :=
  match lookAlong? ignorables pattern r.place.rest r.place with
  | none => none
  | some (found, q) => some (found, ⟨q, max r.furthest q.offset⟩)

/-- the offset of the first text that is not ignorable -/
def significantOffset (ignorables : List Pattern) (r : Reader) : Nat :=
  (skipAll ignorables r.place).offset

def atEnd (ignorables : List Pattern) (r : Reader) : Bool :=
  (skipAll ignorables r.place).rest.isEmpty

def remaining (r : Reader) : String := String.ofList r.place.rest

end Reader

end Packrat
