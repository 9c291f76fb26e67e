import Packrat.Pattern.Error
import Packrat.Pattern.Expr

/-!
# Tokens of a pattern

* `Token`                 the smallest parts of a written pattern;
* `Token.readEscape`      what a backslash introduces;
* `Token.readBrackets`    a class between square brackets;
* `Token.readCount`       a count between braces;
* `Token.readOpening`     the opening of a group, with its name or flags;
* `Token.next`            the first token of a text that is not empty;
* `Token.scan`            all tokens of a text.

Covered are characters and their escapes, `\d`, `\s`, `\w` and what they leave out, the assertions `^`,
`$`, `\A`, `\z`, `\b` and `\B`, classes, groups with and without a name, the flags `i`, `m`, `s`, `U` and
`u`, and all repetitions.  Not covered, and refused, are properties (`\p`), classes by name, inside one
another or combined, the flags `x`, `R` and `-u`, and boundaries such as `\b{start}` or `\<`.  Nothing
limits how deep groups may be nested, or how large a pattern may be.
-/

namespace Packrat

inductive Flag where
  /-- letters match in either case -/
  | ignoreCase
  /-- the ends of lines count as ends -/
  | multiLine
  /-- the dot also stands for a line feed -/
  | dotAll
  /-- greedy and lazy repetitions change roles -/
  | swapGreed
  /-- classes know all scripts; this is always on -/
  | unicode
deriving DecidableEq

inductive Opening where
  /-- the text of the group is kept; the group may have a name -/
  | capturing (name : Option String)
  /-- only groups, under changed flags -/
  | plain (flags : List (Flag × Bool))
deriving DecidableEq

inductive Token where
  | char (c : Char)
  | set (s : CharSet)
  | dot
  | caret
  | dollar
  | assert (a : Assertion)
  | opening (o : Opening)
  | closing
  | bar
  | count (least : Nat) (most : Option Nat) (lazy : Bool)
  | flags (changes : List (Flag × Bool))
deriving DecidableEq

namespace Token

/-! ## Escape sequences -/

/-- what a backslash can introduce -/
inductive Escape where
  | char (c : Char)
  | set (s : CharSet)
  | assert (a : Assertion)

def hexDigit? (c : Char) : Option Nat :=
  if c.isDigit then some (c.toNat - '0'.toNat)
  else if 'a' ≤ c ∧ c ≤ 'f' then some (c.toNat - 'a'.toNat + 10)
  else if 'A' ≤ c ∧ c ≤ 'F' then some (c.toNat - 'A'.toNat + 10)
  else none

def hexValue? (digits : List Char) : Option Nat :=
  digits.foldl (fun n? c => match n?, hexDigit? c with
    | some n, some d => some (16 * n + d)
    | _, _ => none) (some 0)

def charOfCode? (n : Nat) : Option Char := if n.isValidChar then some (Char.ofNat n) else none

def charOfHex (digits : List Char) : Except PatternError Char :=
  match digits.isEmpty, (hexValue? digits).bind charOfCode? with
  | false, some c => .ok c
  | _, _ => .error .invalidCodePoint

/-- a code point of `width` digits, or of any number of digits between braces -/
def readHex (width : Nat) : List Char → Except PatternError (Char × List Char)
  | '\x7b' :: rest =>
    match rest.dropWhile (· ≠ '\x7d') with
    | [] => .error .invalidCodePoint
    | _ :: after => (charOfHex (rest.takeWhile (· ≠ '\x7d'))).map (·, after)
  | rest =>
    if rest.length < width then .error .invalidCodePoint
    else (charOfHex (rest.take width)).map (·, rest.drop width)

def readEscape : List Char → Except PatternError (Escape × List Char)
  | [] => .error .loneBackslash
  | c :: rest =>
    if c = 'd' then .ok (.set .digit, rest)
    else if c = 'D' then .ok (.set (.compl .digit), rest)
    else if c = 's' then .ok (.set .space, rest)
    else if c = 'S' then .ok (.set (.compl .space), rest)
    else if c = 'w' then .ok (.set .word, rest)
    else if c = 'W' then .ok (.set (.compl .word), rest)
    else if c = 'b' then .ok (.assert .wordBoundary, rest)
    else if c = 'B' then .ok (.assert .notWordBoundary, rest)
    else if c = 'A' then .ok (.assert .textStart, rest)
    else if c = 'z' then .ok (.assert .textEnd, rest)
    else if c = 'n' then .ok (.char '\n', rest)
    else if c = 'r' then .ok (.char '\r', rest)
    else if c = 't' then .ok (.char '\t', rest)
    else if c = 'a' then .ok (.char '\x07', rest)
    else if c = 'f' then .ok (.char '\x0c', rest)
    else if c = 'v' then .ok (.char '\x0b', rest)
    else if c = 'x' then (readHex 2 rest).map fun (d, rest) => (.char d, rest)
    else if c = 'u' then (readHex 4 rest).map fun (d, rest) => (.char d, rest)
    else if c = 'U' then (readHex 8 rest).map fun (d, rest) => (.char d, rest)
    else if c.isDigit then .error .backReference
    else if c.isAlpha || c.toNat ≥ 128 || c = '<' || c = '>' then .error (.unknownEscape c)
    else .ok (.char c, rest)

/-! ## Classes -/

/-- one element of a class: a character, or a class that has a letter of its own -/
def readElement : List Char → Except PatternError ((Char ⊕ CharSet) × List Char)
  | [] => .error .unclosedClass
  | '\\' :: rest =>
    match readEscape rest with
    | .error e => .error e
    | .ok (.char c, rest) => .ok (.inl c, rest)
    | .ok (.set s, rest) => .ok (.inr s, rest)
    | .ok (.assert _, _) => .error .unsupportedClass
  | c :: rest => .ok (.inl c, rest)

def elementSet : Char ⊕ CharSet → CharSet
  | .inl c => .one c
  | .inr s => s

def readItem (cs : List Char) : Except PatternError (CharSet × List Char) :=
  match readElement cs with
  | .error e => .error e
  | .ok (lo, '-' :: rest) =>
    if rest.head? = some ']' ∨ rest.head? = some '-' then .ok (elementSet lo, '-' :: rest)
    else
      match lo, readElement rest with
      | _, .error e => .error e
      | .inl lo, .ok (.inl hi, rest) =>
        if lo ≤ hi then .ok (.range lo hi, rest) else .error (.invalidRange lo hi)
      | _, .ok _ => .error .classAsRangeEnd
  | .ok (element, rest) => .ok (elementSet element, rest)

/-- two characters that would combine classes, which are not supported -/
def combinesClasses : List Char → Bool
  | '[' :: _ => true
  | '&' :: '&' :: _ => true
  | '-' :: '-' :: _ => true
  | '~' :: '~' :: _ => true
  | _ => false

/-- the rest of a class, up to its closing bracket -/
def readItems : Nat → CharSet → List Char → Except PatternError (CharSet × List Char)
  | 0, _, _ => .error .unclosedClass
  | fuel + 1, sofar, cs =>
    match cs with
    | [] => .error .unclosedClass
    | ']' :: rest => .ok (sofar, rest)
    | cs =>
      if combinesClasses cs then .error .unsupportedClass
      else
        match readItem cs with
        | .error e => .error e
        | .ok (item, rest) => readItems fuel (.union sofar item) rest

/-- a class after its opening bracket and a sign of negation; hyphens in front, or else a closing
bracket in front, stand for themselves -/
def readClass (cs : List Char) : Except PatternError (CharSet × List Char) :=
  match cs with
  | '-' :: _ => readItems (cs.length + 1) (.one '-') (cs.dropWhile (· = '-'))
  | ']' :: rest => readItems (cs.length + 1) (.one ']') rest
  | cs => readItems (cs.length + 1) .none cs

/-- a class after its opening bracket -/
def readBrackets : List Char → Except PatternError (CharSet × List Char)
  | '^' :: rest => (readClass rest).map fun (s, rest) => (.compl s, rest)
  | rest => readClass rest

/-! ## Repetitions -/

/-- a repetition after its sign: a question mark makes it lazy -/
def readLazy (least : Nat) (most : Option Nat) : List Char → Token × List Char
  | '?' :: rest => (.count least most true, rest)
  | rest => (.count least most false, rest)

/-- a decimal number, which may have white space around it -/
def readNumber (cs : List Char) : Except PatternError (Nat × List Char) :=
  let cs := cs.dropWhile isWhiteSpace
  let digits := cs.takeWhile Char.isDigit
  if digits.isEmpty then .error .missingCount
  else
    .ok (digits.foldl (fun n c => 10 * n + (c.toNat - '0'.toNat)) 0,
      (cs.dropWhile Char.isDigit).dropWhile isWhiteSpace)

/-- a count after its opening brace: a number, a number and a comma, or two numbers -/
def readCount (cs : List Char) : Except PatternError (Token × List Char) :=
  match readNumber cs with
  | .error e => .error e
  | .ok (least, '\x7d' :: rest) => .ok (readLazy least (some least) rest)
  | .ok (least, ',' :: '\x7d' :: rest) => .ok (readLazy least none rest)
  | .ok (least, ',' :: rest) =>
    match readNumber rest with
    | .error e => .error e
    | .ok (most, '\x7d' :: rest) =>
      if least ≤ most then .ok (readLazy least (some most) rest)
      else .error (.emptyCountRange least most)
    | .ok _ => .error .unclosedCount
  | .ok _ => .error .unclosedCount

/-! ## Groups -/

def flagOf? (c : Char) : Option Flag :=
  if c = 'i' then some .ignoreCase
  else if c = 'm' then some .multiLine
  else if c = 's' then some .dotAll
  else if c = 'U' then some .swapGreed
  else if c = 'u' then some .unicode
  else none

/-- flags up to a parenthesis or a colon, those after a hyphen switched off; the changes made so far
are given, and whether a hyphen has been passed and was the last sign -/
def readFlags (changes : List (Flag × Bool)) (off dangling : Bool) :
    List Char → Except PatternError (Token × List Char)
  | [] => .error .unclosedFlags
  | c :: rest =>
    if c = ')' then
      if dangling then .error .danglingNegation
      else if changes.isEmpty then .error .nothingToRepeat
      else .ok (.flags changes.reverse, rest)
    else if c = ':' then
      if dangling then .error .danglingNegation
      else .ok (.opening (.plain changes.reverse), rest)
    else if c = '-' then
      if off then .error (.repeatedFlag c) else readFlags changes true true rest
    else
      match flagOf? c with
      | none => .error (.unknownFlag c)
      | some flag =>
        if changes.any (fun change => change.1 == flag) then .error (.repeatedFlag c)
        else if flag = .unicode ∧ off then .error (.unknownFlag c)
        else readFlags ((flag, !off) :: changes) off false rest

def isGroupName : List Char → Bool
  | [] => false
  | c :: rest =>
    (c.isAlpha || c = '_') &&
      rest.all fun c => c.isAlphanum || c = '_' || c = '.' || c = '[' || c = ']'

/-- the name of a group, up to a closing angle bracket -/
def readName (cs : List Char) : Except PatternError (Token × List Char) :=
  match cs.dropWhile (· ≠ '>') with
  | [] => .error .invalidGroupName
  | _ :: rest =>
    let name := cs.takeWhile (· ≠ '>')
    if isGroupName name then .ok (.opening (.capturing (some (String.ofList name))), rest)
    else .error .invalidGroupName

/-- the opening of a group after its parenthesis, or a change of flags -/
def readOpening : List Char → Except PatternError (Token × List Char)
  | '?' :: '=' :: _ => .error .lookAround
  | '?' :: '!' :: _ => .error .lookAround
  | '?' :: '<' :: '=' :: _ => .error .lookAround
  | '?' :: '<' :: '!' :: _ => .error .lookAround
  | '?' :: '<' :: rest => readName rest
  | '?' :: 'P' :: '<' :: rest => readName rest
  | '?' :: 'P' :: _ => .error .unknownGroup
  | '?' :: rest => readFlags [] false false rest
  | rest => .ok (.opening (.capturing none), rest)

/-! ## All tokens -/

/-- the first token of a text that begins with `c` -/
def next (c : Char) (rest : List Char) : Except PatternError (Token × List Char) :=
  if c = '\\' then
    match readEscape rest with
    | .error e => .error e
    | .ok (.char c, rest) => .ok (.char c, rest)
    | .ok (.set s, rest) => .ok (.set s, rest)
    | .ok (.assert a, rest) => .ok (.assert a, rest)
  else if c = '[' then (readBrackets rest).map fun (s, rest) => (.set s, rest)
  else if c = '(' then readOpening rest
  else if c = ')' then .ok (.closing, rest)
  else if c = '|' then .ok (.bar, rest)
  else if c = '.' then .ok (.dot, rest)
  else if c = '^' then .ok (.caret, rest)
  else if c = '$' then .ok (.dollar, rest)
  else if c = '*' then .ok (readLazy 0 none rest)
  else if c = '+' then .ok (readLazy 1 none rest)
  else if c = '?' then .ok (readLazy 0 (some 1) rest)
  else if c = '\x7b' then readCount rest
  else .ok (.char c, rest)

/-- the tokens of a text, as long as there is fuel: one unit for each character is enough -/
def scanFrom : Nat → List Char → Except PatternError (List Token)
  | _, [] => .ok []
  | 0, _ :: _ => .ok []
  | fuel + 1, c :: rest =>
    match next c rest with
    | .error e => .error e
    | .ok (token, rest) => (scanFrom fuel rest).map (token :: ·)

def scan (cs : List Char) : Except PatternError (List Token) := scanFrom cs.length cs

end Token

end Packrat
