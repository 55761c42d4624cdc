import Lox.Session

/-!
# Messages to the user

What a host tells its user is a row of messages, which only become text at the very end. The text
depends on a style: whether there is colour, whether notes are wanted, and how durations read, since
how long something took is known no sooner than it is over.

Text goes to one of two channels. Within a channel the order of the messages is kept.
-/

namespace Lox

/-- What happened behind the scenes. -/
inductive Note where
  /-- A text is nested too deeply for a stage. -/
  | tooDeep (stage : Stage)
  | compiled (tokens statements diagnostics : Nat)
  | failed (message : String)
  deriving DecidableEq, Repr

/-- A message of a host to its user. -/
inductive Message where
  /-- Something a program printed, or the value of an expression. -/
  | line (text : String)
  /-- The invitation to type a line. -/
  | invitation
  | diagnostic (diagnostic : Diagnostic)
  | issue (issue : Issue)
  | note (note : Note)
  /-- The size of a program that was only checked. -/
  | summary (tokens statements : Nat)
  | noSuchFile (path : String)
  /-- Something is wrong with the command line. -/
  | usageError (reason : String)
  | help
  deriving DecidableEq, Repr

/-- Where text goes. -/
inductive Channel where
  | output
  | error
  deriving DecidableEq, Repr

/-- How messages become text. -/
structure Style where
  colour : Bool
  notes : Bool
  /-- How a duration reads, in milliseconds. -/
  duration : String

namespace Style

/-- A duration in milliseconds, to the nearest hundredth. -/
def milliseconds (nanoseconds : Nat) : String :=
  let hundredths := (nanoseconds + 5000) / 10000
  toString (hundredths / 100) ++ "." ++ Number.Layout.padded 2 (hundredths % 100)

/-- Text in red, if there is colour. -/
def red (style : Style) (text : String) : String :=
  if style.colour then "\x1b[31m" ++ text ++ "\x1b[0m" else text

/-- Text in bold red, if there is colour. -/
def boldRed (style : Style) (text : String) : String :=
  if style.colour then "\x1b[1m" ++ style.red text else text

end Style

def Note.text (duration : String) : Note → String
  | tooDeep stage => "nesting exceeded the recursion limit during " ++ stage.word
  | compiled tokens statements diagnostics =>
    "compiled " ++ toString tokens ++ " tokens into " ++ toString statements
      ++ " statements with " ++ toString diagnostics ++ " diagnostics in " ++ duration ++ " ms"
  | failed message => "runtime error: " ++ message

namespace Message

/-- The line that sums up how the program is called. -/
def usage : String := "usage: minilox [-h] [--check] [--verbose] [script]\n"

/-- What the program says when it is asked for help. -/
def helpText : String :=
  usage
    ++ "\npositional arguments:\n"
    ++ "  script      script to run (if omitted, starts the interactive prompt)\n"
    ++ "\noptions:\n"
    ++ "  -h, --help  show this help message and exit\n"
    ++ "  --check     only scan, parse and resolve; report diagnostics\n"
    ++ "  --verbose   log pipeline timings\n"

def channel : Message → Channel
  | line _ | invitation | summary _ _ | help => .output
  | diagnostic _ | issue _ | note _ | noSuchFile _ | usageError _ => .error

/-- The text of a message. The line of an issue stands below it and has no colour. -/
def text (style : Style) : Message → String
  | line text => text ++ "\n"
  | invitation => "> "
  | diagnostic d => style.red d.text ++ "\n"
  | issue i =>
    style.boldRed i.message ++ "\n"
      ++ i.line.elim "" fun line ↦ "[line " ++ toString line ++ "]\n"
  | note n => if style.notes then "DEBUG:minilox.engine:" ++ n.text style.duration ++ "\n" else ""
  | summary tokens statements =>
    "Tokens: " ++ toString tokens ++ " | Statements: " ++ toString statements ++ " | Time: "
      ++ style.duration ++ " ms\n"
  | noSuchFile path => style.red ("No such file: " ++ path) ++ "\n"
  | usageError reason => usage ++ "minilox: error: " ++ reason ++ "\n"
  | help => helpText

/-- What a row of messages writes to a channel. -/
def textOn (style : Style) (channel : Channel) (messages : List Message) : String :=
  String.join ((messages.filter fun m ↦ m.channel = channel).map (text style))

end Message

/-! ## What there is to tell -/

namespace Analysis

variable {α : Type}

def nestingNotes (a : Analysis α) : List Message :=
  if a.tooDeep then [.note (.tooDeep a.diagnostics.stage)] else []

def complaints (a : Analysis α) : List Message := a.diagnostics.items.toList.map .diagnostic

/-- The notes on a program that was compiled. -/
def notes (a : Analysis (List Stmt)) : List Message :=
  a.nestingNotes
    ++ [.note (.compiled a.tokenCount a.program.length a.diagnostics.items.size)]

end Analysis

/-- What there is to tell about a run: its output, and what was wrong with it. -/
def Run.messages (r : Run) : List Message :=
  r.compilation.notes ++ r.printed.map .line
    ++ (r.issue?.elim [] fun i ↦ [.note (.failed i.message)])
    ++ r.compilation.complaints
    ++ (r.issue?.elim [] fun i ↦ [.issue i])

/-- What there is to tell about an expression that was evaluated: its output, and its value or what
went wrong. Whoever evaluates a text knows that it is an expression, so there is nothing to complain
about. -/
def Evaluation.messages (e : Evaluation) : List Message :=
  e.compilation.nestingNotes ++ e.printed.map .line
    ++ match e.issue?, e.value? with
      | some i, _ => [.issue i]
      | none, some v => [.line v]
      | none, none => []

end Lox
