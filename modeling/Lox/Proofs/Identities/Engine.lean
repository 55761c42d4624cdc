import Lox.Proofs.Commands
import Lox.Proofs.Identities.Form
import Lox.Proofs.Tasks.Consulting

/-!
# Sessions with one table

A session in which the trees have no distances. They are all in one table, which belongs to the
session and which only ever grows: what the resolver finds in a text is noted while it is still
looking for errors, and it is not taken back when the text turns out to be wrong or nested too
deeply. The evaluator consults the same table whenever it comes to a reference, no matter how long
ago the text was resolved in which the reference stands. As the resolver itself never looks at the
table, everything that it has found for a text may as well be noted at once, in the same order.

The table tells references apart by what they are and not by what they say. So the references of
each text get identities that no reference of an earlier text has had, whether the text was right or
wrong. What remains to be shown is that such a session cannot be told from one in which the
distances are filled in.

## What can be seen

An answer shows no slots, as nobody who looks at a tree gets to know what the table has for it. Here
the slots of an answer are emptied. The frames and objects of a session are compared by what the
table makes of the trees that they hold.
-/

namespace Lox

/-! ## Answers without slots -/

/-- What is known about a source text, without what the slots of its references hold. -/
def Analysis.blank {α : Type} (tree : α → α) (a : Analysis α) : Analysis α :=
  { a with
    result := a.result.map tree
    findings := a.findings.map (Scoping.Finding.recast .blank) }

/-- An execution whose interrupt is recast. -/
def Execution.recast {α : Type} (ρ : Recasting) (x : Execution α) : Execution α :=
  { x with result := x.result.mapError (Interrupt.recast ρ) }

def Run.blank (r : Run) : Run :=
  ⟨r.compilation.blank (Stmt.recastRow .blank), r.execution.map (Execution.recast .blank)⟩

def Evaluation.blank (e : Evaluation) : Evaluation :=
  ⟨e.compilation.blank (Expr.recast .blank), e.execution.map (Execution.recast .blank)⟩

/-- What can be seen of an answer. -/
def Answer.blank : Answer → Answer
  | run r => run r.blank
  | evaluation e => evaluation e.blank
  | compilation c => compilation (c.blank (Stmt.recastRow .blank))

namespace Session

/-- A session with everything that its machine holds of programs recast. -/
def recast (ρ : Recasting) (s : Session) : Session := { s with machine := s.machine.recast ρ }

/-- What can be seen of the answers to a row of commands, each with the session after it. -/
def history (s : Session) : List Command → List (Answer × Session)
  | [] => []
  | c :: rest => ((s.answer c).blank, s.serve c) :: (s.serve c).history rest

end Session

/-! ## Sessions with a table -/

/-- A session with one table of distances for all of its texts. -/
structure Engine where
  /-- Everything else. The slots of all that the machine holds are taken up by identities. -/
  session : Session
  locals : Locals
  /-- The number from which no identity has been given out so far. -/
  nextKey : Nat

namespace Engine

variable {α : Type}

def start (host : Host) : Engine := ⟨.start host, fun _ ↦ none, 0⟩

/-- Analyzes a text. Whatever becomes of the text, the identities are given out and all that the
resolver has found is in the table afterwards. -/
def analyze (e : Engine) (F : Form α) (source : String) : Analysis α × Engine :=
  let parsed := Analysis.parse F.parser source
  let keyed := { parsed with result := parsed.result.map (F.keyed e.nextKey) }
  let resolved := keyed.resolveClean F.resolver
  ({ resolved with result := keyed.result },
    { e with
      locals := e.locals.recordAll resolved.findings
      nextKey := e.nextKey + parsed.result.elim 0 F.uses })

/-- Analyzes a text without running it. -/
def compile (e : Engine) (source : String) : Analysis (List Stmt) × Engine :=
  e.analyze (.program e.session.host.nesting) source

/-- Analyzes a text that is a single expression. -/
def compileExpression (e : Engine) (source : String) : Analysis Expr × Engine :=
  e.analyze (.expression e.session.host.nesting) source

/-- Does a task, consulting the table. -/
def perform (e : Engine) (t : Task α) : Eval α :=
  t.runThrough e.locals.read e.session.host e.session.host.nesting

/-- Runs a program, consulting the table. -/
def runProgram (e : Engine) (program : List Stmt) : Eval Unit :=
  program.forM fun st ↦ e.perform (.execute st)

/-- The text of the value of an expression. -/
def textOf (e : Engine) (tree : Expr) : Eval String := do
  return (← e.perform (.evaluate tree)).text

/-- Executes a program, with an output of its own. -/
def execute (e : Engine) (program : List Stmt) : Execution Unit × Engine :=
  let (execution, s) := { e.session with outputs := [] :: e.session.outputs }.perform
    (e.runProgram program)
  (execution, { e with session := s })

/-- Runs a source text. -/
def run (e : Engine) (source : String) : Run × Engine :=
  let (c, e) := e.compile source
  if c.hasErrors then (⟨c, none⟩, e)
  else
    let (execution, e) := e.execute c.program
    (⟨c, some execution⟩, e)

/-- Evaluates a source text that is a single expression. -/
def evaluate (e : Engine) (source : String) : Evaluation × Engine :=
  let (c, e) := e.compileExpression source
  match c.result, c.hasErrors with
  | some tree, false =>
    let (execution, s) := e.session.perform (e.textOf tree)
    (⟨c, some execution⟩, { e with session := s })
  | _, _ => (⟨c, none⟩, e)

/-- The engine after a command. -/
def serve (e : Engine) : Command → Engine
  | .run source => (e.run source).2
  | .evaluate source => (e.evaluate source).2
  | .compile source => (e.compile source).2

/-- The answer to a command. -/
def answer (e : Engine) : Command → Answer
  | .run source => .run (e.run source).1
  | .evaluate source => .evaluation (e.evaluate source).1
  | .compile source => .compilation (e.compile source).1

/-- The engine after a row of commands. -/
def serveAll (e : Engine) (commands : List Command) : Engine := commands.foldl serve e

/-- The session in which the distances are filled in. -/
def located (e : Engine) : Session := e.session.recast (.slots e.locals.read)

/-- What can be seen of the answers to a row of commands, each with the session after it. -/
def history (e : Engine) : List Command → List (Answer × Session)
  | [] => []
  | c :: rest => ((e.answer c).blank, (e.serve c).located) :: (e.serve c).history rest

end Engine

end Lox
