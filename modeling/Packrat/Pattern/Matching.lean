import Packrat.Match
import Packrat.Pattern.Expr

/-!
# Matching with preferences

* `Spot`              how far a match has come: the character before, the place, the groups closed;
* `Address`           where in an expression something stands;
* `Expr.run`          matches an expression from a spot and goes on with what follows, preferred ways
                      first; what to do instead when the rest fails is handed along;
* `Expr.rounds`       the rounds of a repetition;
* `Expr.firstEnd?`    the end of the preferred match from a place.

Between two characters, no choice is made twice: a way that comes back to a choice it has made at the
same place fails.  So no repetition goes round and round at one place, and `(?:.*?)+b` stops at the first
`b`: after a character, the lazy repetition inside stands at its choice already.
-/

namespace Packrat

/-- how far a match has come -/
structure Spot where
  /-- the character before the place, if the match has passed one -/
  before : Option Char
  place : Place
  /-- the groups closed so far, each with its two ends; of several rounds the last -/
  groups : List (Nat × Place × Place)

namespace Spot

/-- the start of a match: nothing before it counts -/
def start (p : Place) : Spot := ⟨none, p, []⟩

/-- the spot after the character `c`, where `rest` follows -/
def past (s : Spot) (c : Char) (rest : List Char) : Spot :=
  { s with before := some c, place := s.place.past c rest }

/-- closes a group that was opened at `p` -/
def close (s : Spot) (index : Nat) (p : Place) : Spot :=
  { s with groups := (index, p, s.place) :: s.groups.filter (fun g => g.1 != index) }

def groupText (s : Spot) (index : Nat) : Option String :=
  match s.groups.find? (fun g => g.1 == index) with
  | none => none
  | some (_, p, q) => some (p.textTo q)

end Spot

/-- where in an expression something stands: for each part on the way, the innermost first, whether it is
the second of two parts -/
abbrev Address := List Bool

namespace Expr
variable {α : Type}

/-- the rounds of the repetition at `a`, from the choice whether there is one more.  All but the first of
these choices come after a character, so there are no more of them than characters in `left`. -/
def rounds (greedy : Bool) (a : Address)
    (round : Spot → List Address → (Spot → List Address → (Unit → α) → α) → (Unit → α) → α)
    (next : Spot → List Address → (Unit → α) → α) :
    List Char → Spot → List Address → (Unit → α) → α
  | [], s, trail, other => if trail.contains a then other () else next s (a :: trail) other
  | _ :: left, s, trail, other =>
    if trail.contains a then other ()
    else if greedy then
      round s (a :: trail) (rounds greedy a round next left) fun _ => next s (a :: trail) other
    else
      next s (a :: trail) fun _ => round s (a :: trail) (rounds greedy a round next left) other

/-- matches the expression with address `a` at `s` and goes on with `next`; `trail` holds the choices made
since the last character, and `other` is the way out when there is no match, or when what follows wants
another one -/
def run : Expr → Address → Spot → List Address → (Spot → List Address → (Unit → α) → α) →
    (Unit → α) → α
  | .empty, _, s, trail, next, other => next s trail other
  | .set cs anyCase, _, s, _, next, other =>
    match s.place.rest with
    | [] => other ()
    | c :: rest => if cs.mem anyCase c then next (s.past c rest) [] other else other ()
  | .assert cond, _, s, trail, next, other =>
    if cond.holds s.before s.place.rest.head? then next s trail other else other ()
  | .seq e f, a, s, trail, next, other =>
    e.run (false :: a) s trail (fun t trail other => f.run (true :: a) t trail next other) other
  | .alt e f, a, s, trail, next, other =>
    if trail.contains a then other ()
    else
      e.run (false :: a) s (a :: trail) next fun _ => f.run (true :: a) s (a :: trail) next other
  | .group index e, a, s, trail, next, other =>
    e.run (false :: a) s trail (fun t trail other => next (t.close index s.place) trail other) other
  | .opt greedy e, a, s, trail, next, other =>
    if trail.contains a then other ()
    else if greedy then e.run (false :: a) s (a :: trail) next fun _ => next s (a :: trail) other
    else next s (a :: trail) fun _ => e.run (false :: a) s (a :: trail) next other
  | .plus greedy e, a, s, trail, next, other =>
    e.run (false :: a) s trail (rounds greedy a (e.run (false :: a)) next s.place.rest) other
  | .star greedy e, a, s, trail, next, other =>
    rounds greedy a (e.run (false :: a)) next s.place.rest s trail other

/-- the spot where the preferred match from `p` ends -/
def firstEnd? (e : Expr) (p : Place) : Option Spot :=
  e.run [] (Spot.start p) [] (fun s _ _ => some s) (fun _ => none)

end Expr

end Packrat
