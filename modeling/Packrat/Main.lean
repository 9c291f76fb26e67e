import Packrat.CommandLine
import Packrat.Elapsed

/-!
# The program

Reads the arguments, files, the standard input and the clock, and writes the answer.
-/

namespace Packrat

def decoded (bytes : ByteArray) : Except String String :=
  match String.fromUTF8? bytes with
  | some s => .ok s
  | none => .error "stream did not contain valid UTF-8"

def systemReason : IO.Error → String
  | .noFileOrDirectory _ _ _ => "No such file or directory (os error 2)"
  | .permissionDenied _ _ _ => "Permission denied (os error 13)"
  | .inappropriateType _ _ _ => "Is a directory (os error 21)"
  | e => toString e

/-- the files of the system and the standard input of the program -/
def systemSources : Sources IO where
  file path := do
    try
      return decoded (← IO.FS.readBinFile path)
    catch e => return .error (systemReason e)
  standardInput := do
    try
      return decoded (← (← IO.getStdin).readBinToEnd)
    catch e => return .error (systemReason e)

/-- steps enough for every text that fits into memory -/
def stepLimit : Nat := 0x4000000000000000

def carryOut (command : Command) : IO Response := do
  let before ← IO.monoNanosNow
  match command.account? stepLimit with
  | none => return ⟨1, "", "error: too many steps\n"⟩
  | some account =>
    let after ← IO.monoNanosNow
    return account.respond (elapsedText (after - before))

def answerArguments (arguments : List String) : IO Response := do
  let terminal ← (← IO.getStdout).isTty
  match ← Command.ofArguments systemSources terminal arguments with
  | .error e => return e.respond
  | .ok command => carryOut command

end Packrat

def main (arguments : List String) : IO UInt32 := do
  let response ← Packrat.answerArguments arguments
  (← IO.getStdout).putStr response.out
  (← IO.getStderr).putStr response.err
  return response.exit.toUInt32
