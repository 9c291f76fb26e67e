import Packrat.Text.CombiningMark
import Packrat.Text.Unprintable

/-!
# Quoted text

* `escapeChar`   a character as it stands between quotation marks;
* `quote`        a text between quotation marks, every character on paper.

The quotation mark and the backslash are preceded by a backslash, the usual controls have a letter,
and a character that cannot be seen, or that would merge with its neighbour, is given by its code
point.
-/

namespace Packrat

/-- the code point of `c` in hexadecimal, in braces -/
def codePointEscape (c : Char) : List Char :=
  ['\\', 'u', '{'] ++ Nat.toDigits 16 c.toNat ++ ['}']

/-- a character as it stands between quotation marks -/
def escapeChar (c : Char) : List Char :=
  if c = '"' then ['\\', '"']
  else if c = '\\' then ['\\', '\\']
  else if c = '\t' then ['\\', 't']
  else if c = '\n' then ['\\', 'n']
  else if c = '\r' then ['\\', 'r']
  else if c = '\x00' then ['\\', '0']
  else if isUnprintable c || isCombining c then codePointEscape c
  else [c]

def quote (text : String) : String :=
  String.ofList ('"' :: text.toList.flatMap escapeChar ++ ['"'])

end Packrat
