import Packrat.Language.Arithmetic
import Packrat.Language.Assembly
import Packrat.Language.Json
import Packrat.Report

/-!
# The command line

* `Language`              the bundled grammars;
* `Request`               what is to be parsed, and how to report it;
* `Command`               help, the version, or a request;
* `UsageError`            why arguments make no command;
* `Sources`               where a command finds files and the standard input;
* `Command.ofArguments`   the command that arguments spell;
* `Account`               an answer that only lacks the elapsed time;
* `Response`              what goes to the two outputs, and the exit code;
* `answer?`               the answer to what arguments amount to.

Files are read while arguments are, so an unreadable file is reported before anything that is wrong
with a later argument.
-/

namespace Packrat

/-- the bundled grammars -/
inductive Language where
  | arithmetic
  | json
  | assembly
deriving DecidableEq

def Language.ofName? : String → Option Language
  | "arith" => some .arithmetic
  | "arithmetic" => some .arithmetic
  | "json" => some .json
  | "asm" => some .assembly
  | "assembly" => some .assembly
  | _ => none

/-- what is to be parsed, and how to report it -/
structure Request where
  input : String
  language : Language
  /-- the rule to begin with, in place of the language's own -/
  rule : Option String
  memoize : Bool
  colored : Bool
deriving DecidableEq

inductive Command where
  | help
  | version
  | parse (request : Request)
deriving DecidableEq

inductive UsageError where
  | missingValue (option : String)
  | missingPath (option : String)
  | unknownGrammar (name : String)
  | unknownOption (argument : String)
  | repeatedInput
  | unreadableFile (path reason : String)
  | unreadableInput (reason : String)
  | noInput
deriving DecidableEq

def versionText : String := "trellis 0.1.0"

def helpText : String := versionText ++ "

Parse text with one of the bundled grammars and print the tree.

Usage:
  trellis [OPTIONS] [--] <input...>
  trellis [OPTIONS] --input <text>
  trellis [OPTIONS] --file <path>

Options:
  -g, --grammar <name>       Grammar to use: arith, json or asm. Default: arith
  -r, --rule <name>          Entry rule. Default: the grammar's own entry rule.
  -i, --input <text>         Input text to parse. If omitted, reads remaining args
                             or stdin when no args are provided.
  -f, --file <path>          Read input from a file.
  --no-memo                  Disable memoization.
  --color                    Force ANSI color output.
  --no-color                 Disable ANSI color output.
  -h, --help                 Show this help message.
  -V, --version              Print version information.

Logging:
  RUST_LOG=trellis=debug     Grammar build summaries.
  RUST_LOG=trellis=trace     Every rule entry and exit.

Exit codes:
  0  Input parsed completely.
  1  Parse failure.
  2  Invalid arguments or missing input.
"

def UsageError.message : UsageError → String
  | .missingValue option => s!"error: {option} expects a value"
  | .missingPath option => s!"error: {option} expects a path"
  | .unknownGrammar name => s!"error: unknown grammar '{name}' (expected arith, json or asm)"
  | .unknownOption argument => s!"error: unknown option '{argument}'"
  | .repeatedInput => "error: input provided multiple times"
  | .unreadableFile path reason => s!"error: failed to read '{path}': {reason}"
  | .unreadableInput reason => s!"error: failed to read stdin: {reason}"
  | .noInput => "error: no input provided\n\n" ++ helpText

/-! ## Reading arguments -/

/-- where a command finds files and the standard input; either may be unreadable for a reason -/
structure Sources (m : Type → Type) where
  file : String → m (Except String String)
  standardInput : m (Except String String)

/-- what the arguments so far have settled -/
structure Settings where
  input : Option String := none
  language : Language := .arithmetic
  rule : Option String := none
  memoize : Bool := true
  colored : Bool := false
deriving DecidableEq

namespace Settings

/-- the input, which can be given only once -/
def giveInput (s : Settings) (input : String) : Except UsageError Settings :=
  match s.input with
  | some _ => .error .repeatedInput
  | none => .ok { s with input := some input }

def chooseLanguage (s : Settings) (name : String) : Except UsageError Settings :=
  match Language.ofName? name with
  | none => .error (.unknownGrammar name)
  | some language => .ok { s with language := language }

def chooseRule (s : Settings) (rule : String) : Except UsageError Settings :=
  .ok { s with rule := some rule }

end Settings

inductive Valued where
  | grammar
  | rule
  | input
  | file
deriving DecidableEq

namespace Valued

def long : Valued → String
  | .grammar => "--grammar"
  | .rule => "--rule"
  | .input => "--input"
  | .file => "--file"

def ofName? : String → Option Valued
  | "--grammar" => some .grammar
  | "-g" => some .grammar
  | "--rule" => some .rule
  | "-r" => some .rule
  | "--input" => some .input
  | "-i" => some .input
  | "--file" => some .file
  | "-f" => some .file
  | _ => none

def missing : Valued → UsageError
  | .file => .missingPath (long .file)
  | option => .missingValue option.long

/-- what follows `head` in the text -/
def stripOnce? : List Char → List Char → Option (List Char)
  | [], cs => some cs
  | _ :: _, [] => none
  | h :: head, c :: cs => if h = c then stripOnce? head cs else none

/-- what follows all of the copies of `head` at the start of the text, at most as many as given -/
def stripAll (head : List Char) : Nat → List Char → List Char
  | 0, cs => cs
  | most + 1, cs =>
    match stripOnce? head cs with
    | none => cs
    | some rest => stripAll head most rest

/-- the value that is joined to the long name of the option by a sign of equality; repeating name
and sign changes nothing -/
def joinedValue? (option : Valued) (argument : String) : Option String :=
  let head := (option.long ++ "=").toList
  match stripOnce? head argument.toList with
  | none => none
  | some rest => some (String.ofList (stripAll head rest.length rest))

/-- the option that the argument is joined to, and its value -/
def joined? (argument : String) : Option (Valued × String) :=
  [Valued.grammar, .rule, .input, .file].findSome? fun option =>
    (option.joinedValue? argument).map (option, ·)

end Valued

/-- whether the argument looks like an option: a hyphen, and then something other than a digit -/
def looksLikeOption (argument : String) : Bool :=
  match argument.toList with
  | '-' :: c :: _ => !c.isDigit
  | _ => false

def isBlank (s : String) : Bool := s.toList.all isWhiteSpace

/-- the request that the settings amount to, once there is input -/
def Settings.request (s : Settings) (input : String) : Except UsageError Command :=
  if isBlank input then .error .noInput
  else .ok (.parse ⟨input, s.language, s.rule, s.memoize, s.colored⟩)

namespace Command
variable {m : Type → Type} [Monad m] (sources : Sources m)

def applyValue (s : Settings) (option : Valued) (value : String) :
    m (Except UsageError Settings) :=
  match option with
  | .grammar => pure (s.chooseLanguage value)
  | .rule => pure (s.chooseRule value)
  | .input => pure (s.giveInput value)
  | .file => do
    match ← sources.file value with
    | .error reason => pure (.error (.unreadableFile value reason))
    | .ok content => pure (s.giveInput content)

/-- the command once all arguments are read: without input, the standard input is taken -/
def settle (s : Settings) : m (Except UsageError Command) :=
  match s.input with
  | some input => pure (s.request input)
  | none => do
    match ← sources.standardInput with
    | .error reason => pure (.error (.unreadableInput reason))
    | .ok input => pure (s.request input)

/-- the command when the arguments are words of the input from here on -/
def settleWith (s : Settings) (words : List String) : m (Except UsageError Command) :=
  match s.giveInput (" ".intercalate words) with
  | .error e => pure (.error e)
  | .ok s => settle sources s

/-- the command that the arguments spell, after those that have led to the settings -/
def ofArgumentsIn (s : Settings) : List String → m (Except UsageError Command)
  | [] => settle sources s
  | argument :: rest =>
    if argument = "-h" ∨ argument = "--help" then pure (.ok .help)
    else if argument = "-V" ∨ argument = "--version" then pure (.ok .version)
    else if argument = "--color" then ofArgumentsIn { s with colored := true } rest
    else if argument = "--no-color" then ofArgumentsIn { s with colored := false } rest
    else if argument = "--no-memo" then ofArgumentsIn { s with memoize := false } rest
    else if argument = "--" then
      if isBlank (" ".intercalate rest) then settle sources s else settleWith sources s rest
    else
      match Valued.ofName? argument, rest with
      | some option, [] => pure (.error option.missing)
      | some option, value :: rest => do
        match ← applyValue sources s option value with
        | .error e => pure (.error e)
        | .ok s => ofArgumentsIn s rest
      | none, rest =>
        match Valued.joined? argument with
        | some (option, value) => do
          match ← applyValue sources s option value with
          | .error e => pure (.error e)
          | .ok s => ofArgumentsIn s rest
        | none =>
          if looksLikeOption argument then pure (.error (.unknownOption argument))
          else settleWith sources s (argument :: rest)

/-- the command that the arguments spell; styles are used on a terminal unless told otherwise -/
def ofArguments (terminal : Bool) (arguments : List String) : m (Except UsageError Command) :=
  ofArgumentsIn sources { colored := terminal } arguments

end Command

/-! ## Answers -/

structure Response where
  exit : Nat
  out : String
  err : String
deriving DecidableEq

/-- an answer that only lacks the elapsed time -/
structure Account where
  exit : Nat
  /-- the text for the standard output, given the elapsed time -/
  report : String → String

def Account.respond (a : Account) (elapsed : String) : Response := ⟨a.exit, a.report elapsed, ""⟩

/-- an answer in which the time does not show -/
def Account.print (s : String) : Account := ⟨0, fun _ => s ++ "\n"⟩

namespace Request

/-- parses the input with a grammar whose own entry is given -/
def accountWith? {τ : Type} [Tag τ] (r : Request) (limit : Nat) (grammar : Grammar τ)
    (entry : String) : Option Account :=
  let g := grammar.compile
  (g.inspect? limit (r.rule.getD entry) r.input { memoize := r.memoize }).map fun i =>
    ⟨if i.outcome.result.isOk then 0 else 1,
      Report.render r.colored g PatternError.message r.input i⟩

/-- parses the input, in at most so many steps -/
def account? (r : Request) (limit : Nat) : Option Account :=
  match r.language with
  | .arithmetic => r.accountWith? limit Arithmetic.grammar Arithmetic.entry
  | .json => r.accountWith? limit JsonTag.grammar JsonTag.entry
  | .assembly => r.accountWith? limit AssemblyTag.grammar AssemblyTag.entry

end Request

/-- the answer to a command -/
def Command.account? (limit : Nat) : Command → Option Account
  | .help => some (.print helpText)
  | .version => some (.print versionText)
  | .parse request => request.account? limit

def UsageError.respond (e : UsageError) : Response := ⟨2, "", e.message ++ "\n"⟩

/-- the answer to what arguments amount to, after that time -/
def answer? (limit : Nat) (elapsed : String) : Except UsageError Command → Option Response
  | .error e => some e.respond
  | .ok command => (command.account? limit).map (·.respond elapsed)

end Packrat
