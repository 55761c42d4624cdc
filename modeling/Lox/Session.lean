import Lox.Analysis
import Lox.Evaluation

/-!
# Sessions

A session runs one source text after the other on the same machine, so the globals of one are there
for the next. A text with errors does not reach the machine at all.

## Whose output it is

Every run that is executed opens an output of its own, and whatever is printed goes to the output
that was opened last. Evaluating an expression opens none. So what an expression prints is added to
the output of the run before it, and if there was none it is in no output.
-/

namespace Lox

/-- What happened when something was executed. -/
structure Execution (α : Type) where
  result : Except Interrupt α
  /-- The lines that were printed meanwhile. -/
  printed : List String
  /-- The number of statements that were begun meanwhile. -/
  steps : Nat

/-- The issue that ended the execution. -/
def Execution.issue? {α : Type} (e : Execution α) : Option Issue :=
  match e.result with
  | .error (.issue i) => some i
  | _ => none

/-- What ended the execution and is no issue, so that it is not the program's fault. -/
def Execution.escaped? {α : Type} (e : Execution α) : Option Interrupt :=
  match e.result with
  | .ok _ | .error (.issue _) => none
  | .error interrupt => some interrupt

/-- A source text that was run. It is executed only if it has no errors. -/
structure Run where
  compilation : Analysis (List Stmt)
  execution : Option (Execution Unit)

namespace Run

def issue? (r : Run) : Option Issue := r.execution.bind Execution.issue?

def escaped? (r : Run) : Option Interrupt := r.execution.bind Execution.escaped?

def printed (r : Run) : List String := r.execution.elim [] Execution.printed

/-- The number of statements that were begun, a refused one included. -/
def begun (r : Run) : Nat := r.execution.elim 0 Execution.steps

/-- Whether the text was executed to its end. -/
def isOk (r : Run) : Bool := r.execution.any fun e ↦ e.result.isOk

end Run

/-- A source text that was evaluated as an expression. It is executed only if it has no errors. -/
structure Evaluation where
  compilation : Analysis Expr
  execution : Option (Execution String)

namespace Evaluation

def issue? (e : Evaluation) : Option Issue := e.execution.bind Execution.issue?

def escaped? (e : Evaluation) : Option Interrupt := e.execution.bind Execution.escaped?

def printed (e : Evaluation) : List String := e.execution.elim [] Execution.printed

/-- The value of the expression, as a program prints it. -/
def value? (e : Evaluation) : Option String := e.execution.bind fun x ↦ x.result.toOption

end Evaluation

/-- A machine with its host and with the outputs of the runs so far. -/
structure Session where
  host : Host
  machine : Machine
  /-- The lines of each run that was executed, the latest run first. -/
  outputs : List (List String)

namespace Session

variable {α : Type}

def start (host : Host) : Session := ⟨host, .start, []⟩

/-- Adds lines to the output that was opened last. -/
def addLines (lines : List String) : List (List String) → List (List String)
  | [] => []
  | latest :: earlier => (latest ++ lines) :: earlier

/-- Takes over a machine that has been running since the session was `s`. -/
def after (s : Session) (m : Machine) (result : Except Interrupt α) : Execution α × Session :=
  let printed := m.printed.reverse
  (⟨result, printed, m.steps - s.machine.steps⟩,
    { s with machine := { m with printed := [] }, outputs := addLines printed s.outputs })

/-- Lets the machine do something. -/
def perform (s : Session) (p : Eval α) : Execution α × Session :=
  match p s.machine with
  | .ok a m => s.after m (.ok a)
  | .error interrupt m => s.after m (.error interrupt)

/-- Executes a program, with an output of its own. -/
def execute (s : Session) (program : List Stmt) : Execution Unit × Session :=
  { s with outputs := [] :: s.outputs }.perform (Eval.run s.host program)

/-- Runs a source text. -/
def run (s : Session) (source : String) : Run × Session :=
  let c := compile s.host.nesting source
  if c.hasErrors then (⟨c, none⟩, s)
  else
    let (execution, s) := s.execute c.program
    (⟨c, some execution⟩, s)

/-- The text of the value of an expression. -/
def textOf (host : Host) (e : Expr) : Eval String := do
  return (← Eval.evaluate host host.nesting e).text

/-- Evaluates a source text that is a single expression. -/
def evaluate (s : Session) (source : String) : Evaluation × Session :=
  let c := compileExpression s.host.nesting source
  match c.result, c.hasErrors with
  | some e, false =>
    let (execution, s) := s.perform (textOf s.host e)
    (⟨c, some execution⟩, s)
  | _, _ => (⟨c, none⟩, s)

end Session

end Lox
