import Lox.Proofs.Lexical.Evaluation
import Lox.Proofs.Commands

/-!
# Sessions of the lexical semantics

The same commands, answered by the lexical semantics. The globals and the built-in functions of one
program are there for the next.
-/

namespace Lox.Lexical

def Outcome.ofResult {α : Type} (text : α → Option String) : Except Interrupt α → Lox.Outcome
  | .ok a => .done (text a)
  | .error (.issue i) => .issue i
  | .error .exhausted => .exhausted
  | .error _ => .astray

namespace Machine

variable {α : Type}

/-- The globals, with the texts of their values. -/
def globalTexts (μ : Machine) : List (String × String) :=
  μ.globals.entries.map fun e ↦ (e.1, e.2.text)

/-- What is seen of a machine that has been running since it was `μ`. -/
def after (μ μ' : Machine) (outcome : Outcome) : Report × Machine :=
  (⟨outcome, μ'.printed.reverse, μ'.steps - μ.steps, μ'.globalTexts⟩, { μ' with printed := [] })

/-- Lets the machine do something. -/
def perform (μ : Machine) (text : α → Option String) (p : Eval α) : Report × Machine :=
  match p μ with
  | .ok a μ' => μ.after μ' (Outcome.ofResult text (.ok a))
  | .error i μ' => μ.after μ' (Outcome.ofResult text (.error i))

/-- The text of the value of an expression. -/
def textOf (host : Host) (e : Expr) : Eval String := do
  return (← Eval.evaluate host host.nesting .none e).text

/-- What is seen of a command, and the machine afterwards. -/
def answer (host : Host) (μ : Machine) : Command → Option Report × Machine
  | .run source =>
    let c := compile host.nesting source
    if c.hasErrors then (none, μ)
    else (μ.perform (fun _ ↦ none) (Eval.run host c.program)).map some id
  | .evaluate source =>
    let c := compileExpression host.nesting source
    match c.result, c.hasErrors with
    | some e, false => (μ.perform some (textOf host e)).map some id
    | _, _ => (none, μ)
  | .compile _ => (none, μ)

/-- The machine after a row of commands. -/
def serveAll (host : Host) (μ : Machine) (commands : List Command) : Machine :=
  commands.foldl (fun μ r ↦ (μ.answer host r).2) μ

/-- What is seen of a row of commands. -/
def reports (host : Host) (μ : Machine) : List Command → List (Option Report)
  | [] => []
  | r :: rest => (μ.answer host r).1 :: (μ.answer host r).2.reports host rest

end Machine

end Lox.Lexical
