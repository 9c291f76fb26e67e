/-!
# Durations

* `elapsedText`   a duration in the largest unit of which it has at least one, down to the
                  nanosecond.
-/

namespace Packrat

/-- a fraction with that many places, without zeros at its end -/
def fractionText (places n : Nat) : String :=
  let digits := Nat.toDigits 10 n
  let padded := List.replicate (places - digits.length) '0' ++ digits
  let shown := (padded.reverse.dropWhile (· = '0')).reverse
  if shown.isEmpty then "" else "." ++ String.ofList shown

/-- `n` nanoseconds in units of ten to the `places` nanoseconds -/
def inUnits (places n : Nat) (unit : String) : String :=
  toString (n / Nat.pow 10 places) ++ fractionText places (n % Nat.pow 10 places) ++ unit

def elapsedText (n : Nat) : String :=
  if n < 1000 then inUnits 0 n "ns"
  else if n < 1000000 then inUnits 3 n "µs"
  else if n < 1000000000 then inUnits 6 n "ms"
  else inUnits 9 n "s"

end Packrat
