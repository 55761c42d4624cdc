import Lox.CommandLine.Files
import Lox.CommandLine.Request
import Lox.Prompt
import Lox.Text.Lines

/-!
# The command line

What the program does when it is called: it runs or checks a script, or it starts a conversation.
Nothing here reads files or typed lines; they are handed in.
-/

namespace Lox.CommandLine

/-- How the program ends. -/
inductive Ending where
  | status (code : Nat)
  /-- The program ends while it is reading its command line. -/
  | exit (code : Nat)
  /-- The script is not valid UTF-8. -/
  | undecodable
  /-- The script is a directory. -/
  | isDirectory
  /-- The path of the script is too long. -/
  | pathTooLong
  /-- Execution ended in a way that is not the fault of the program that was run. -/
  | escaped (interrupt : Interrupt)

/-- What the program does. -/
structure Outcome where
  messages : List Message
  ending : Ending

/-- The status of a command line that names no existing file. -/
def noSuchFileStatus : Nat := 64

/-- The status of a script with diagnostics. -/
def staticErrorStatus : Nat := 65

/-- The status of a script that stops because of an issue. -/
def issueStatus : Nat := 70

/-- The status of a script that does not make sense to the command line. -/
def usageStatus : Nat := 2

/-- Analyzes a script without running it. -/
def check (host : Host) (source : String) : Outcome :=
  let a := compile host.nesting source
  ⟨a.notes ++ a.complaints ++ [.summary a.tokenCount a.program.length],
    .status (if a.hasErrors then staticErrorStatus else 0)⟩

/-- Runs a script. -/
def execute (host : Host) (source : String) : Outcome :=
  let r := ((Session.start host).run source).1
  let status :=
    if r.compilation.hasErrors then staticErrorStatus
    else if r.issue?.isSome then issueStatus
    else 0
  ⟨r.messages, r.escaped?.elim (.status status) .escaped⟩

/-- Runs or checks what there is at the path of a script. -/
def script (host : Host) (path : String) (checkOnly : Bool) : Entry → Outcome
  | .absent => ⟨[.noSuchFile (Path.normalize path)], .status noSuchFileStatus⟩
  | .directory => ⟨[], .isDirectory⟩
  | .tooLong => ⟨[], .pathTooLong⟩
  | .file content =>
    match Text.decode? content with
    | none => ⟨[], .undecodable⟩
    | some source => if checkOnly then check host source else execute host source

/-- Does what is asked for. -/
def perform (host : Host) (look : String → Entry) (input : String) : Request → Outcome
  | .help => ⟨[.help], .exit 0⟩
  | .refuse reason => ⟨[.usageError reason], .exit usageStatus⟩
  | .prompt =>
    let (messages, escaped) := Prompt.converse (.start host) (Text.lines input)
    ⟨Prompt.greeting ++ messages, escaped.elim (.status 0) .escaped⟩
  | .script path checkOnly => script host path checkOnly (look (Path.normalize path))

end Lox.CommandLine
