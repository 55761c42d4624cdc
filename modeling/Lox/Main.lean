import Lox.CommandLine

/-!
# The program

The outer layer: it reads the command line, files and typed lines, and writes what the library has
to say.
-/

namespace Lox

/-- A host whose clock starts at the current time. -/
def currentHost : IO Host :=
  return .standard none ((← IO.monoNanosNow).toFloat / 1e9)

/-- Writes messages to their channels. -/
def write (style : Style) (messages : List Message) : IO Unit := do
  let output ← IO.getStdout
  let error ← IO.getStderr
  for m in messages do
    match m.channel with
    | .output => output.putStr (m.text style)
    | .error => output.flush; error.putStr (m.text style)
  output.flush

/-- Why execution ended in a way that is not the fault of the program that was run. -/
def explain : Interrupt → String
  | .desync d => d.message
  | .issue i => i.message
  | .returning _ => "return outside of a function"
  | .stuck => "stuck"
  | .exhausted => "too many rounds"

/-- Looks up what there is at a path. -/
def lookUp (path : String) : IO Entry := do
  match ← (IO.FS.readBinFile path).toBaseIO with
  | .ok content => return .file content
  | .error (.noFileOrDirectory ..) => return .absent
  | .error (.inappropriateType _ _ "not a directory") => return .absent
  | .error (.inappropriateType ..) => return .directory
  | .error (.invalidArgument _ _ "name too long") => return .tooLong
  | .error e => throw e

/-- Runs something that has no effects, and tells how long it took in nanoseconds. -/
def timed {α : Type} (f : Unit → α) : IO (α × Nat) := do
  let before ← IO.monoNanosNow
  let a ← IO.lazyPure f
  return (a, (← IO.monoNanosNow) - before)

/-- Talks with the user until one of them ends it. -/
partial def talk (style : Style) (s : Session) : IO Unit := do
  write style [.invitation]
  let line ← (← IO.getStdin).getLine
  let typed := if line.isEmpty then Prompt.endOfInput else (line.dropSuffix "\n").copy
  let host ← currentHost
  let ((r, s), spent) ← timed fun _ ↦ Prompt.react { s with host } typed
  write { style with duration := Style.milliseconds spent } r.messages
  if let some interrupt := r.escaped then throw (.userError (explain interrupt))
  unless r.ends do talk style s

/-- Does what the command line asks for, and returns the status. -/
def respond (arguments : List String) : IO Nat := do
  let (request, notes) := Request.ofArguments arguments
  let style : Style := ⟨← (← IO.getStdout).isTty, notes, ""⟩
  let host ← currentHost
  if let .prompt := request then
    write style Prompt.greeting
    talk style (.start host)
    return 0
  let entry ← match request with
    | .script path _ => lookUp (Path.normalize path)
    | _ => pure .absent
  let (outcome, spent) ← timed fun _ ↦ CommandLine.perform host (fun _ ↦ entry) "" request
  write { style with duration := Style.milliseconds spent } outcome.messages
  match outcome.ending with
  | .status code | .exit code => return code
  | .undecodable => throw (.userError "the script is not valid UTF-8")
  | .isDirectory => throw (.userError "the script is a directory")
  | .pathTooLong => throw (.userError "the path of the script is too long")
  | .escaped interrupt => throw (.userError (explain interrupt))

end Lox

def main (arguments : List String) : IO UInt32 := return (← Lox.respond arguments).toUInt32
