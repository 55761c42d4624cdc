import Lox.Proofs.Recasting.Recast
import Lox.Proofs.Tasks.Evaluator

/-!
# Evaluating with a table at hand

The evaluator finds the distance of a reference in the slot of the reference. It could as well be
kept in a table, and the slot would only say where in the table it is. Such an evaluator consults
its table each time that it comes to a reference, and is otherwise no different. Here any function
of slots may be the table. If it leaves every slot what it is, the evaluator is the one that has no
table.
-/

namespace Lox

variable (φ : Option Nat → Option Nat)

/-- An expression whose reference has been looked up, if it is one that has a reference itself. -/
def Expr.consulting : Expr → Expr
  | .var target => .var (target.recast (.slots φ))
  | .self keyword => .self (keyword.recast (.slots φ))
  | .inherited keyword method => .inherited (keyword.recast (.slots φ)) method
  | e => e

/-- A statement whose reference has been looked up, if it is a class that has a superclass. -/
def Stmt.consulting : Stmt → Stmt
  | .class name (some r) methods => .class name (some (r.recast (.slots φ))) methods
  | st => st

namespace Task

variable {α : Type} (host : Host) (nesting : Nat)

/-- A task whose own references have been looked up, but none in the tasks that it asks for. -/
def consulting : {α : Type} → Task α → Task α
  | _, evaluate e => evaluate (e.consulting φ)
  | _, assignment target value => assignment (target.recast (.slots φ)) value
  | _, execute st => execute (st.consulting φ)
  | _, t => t

/-- Does a task, consulting a table for each reference. -/
def runThrough : Nat → Answers
  | 0, _, _ => Eval.overflow
  | nesting + 1, _, t => ((t.consulting φ).script host).run (runThrough nesting)

theorem consulting_id (t : Task α) : t.consulting id = t := by
  cases t with
  | evaluate e => cases e <;> rfl
  | execute st =>
    cases st with
    | «class» name superclass methods => cases superclass <;> rfl
    | _ => rfl
  | _ => rfl

/-- Where every slot holds the distance itself, no table is needed. -/
theorem runThrough_id (t : Task α) : t.runThrough id host nesting = t.run host nesting := by
  induction nesting generalizing α with
  | zero => cases t <;> rfl
  | succ nesting ih =>
    have hanswers : (fun {β} ↦ @runThrough id host nesting β) = fun {β} ↦ @run host nesting β :=
      funext fun _ ↦ funext fun t ↦ ih t
    rw [runThrough, consulting_id, run_succ]
    exact congrArg (fun answers : Answers ↦ (t.script host).run answers) hanswers

end Task

end Lox
