import Lox.Proofs.Tasks.Script

/-!
# The scripts of the evaluator

Each function of the evaluator, with the calls of the others as tasks. If the tasks are done with
one nested call less, a script does what the function does.
-/

namespace Lox

open Script (perform answer enclose)

/-- Evaluates an expression. -/
def Expr.script : Expr → Script Value
  | .literal value => return value.toValue
  | .group inner => answer (.evaluate inner)
  | .unary operator operand => do
    let v ← answer (.evaluate operand)
    perform (Eval.ofExcept .issue (Value.unary operator v))
  | .binary left operator right => answer (.binary left operator right)
  | .logical left operator right => do
    let v ← answer (.evaluate left)
    if v.isTruthy = decide (operator.kind = .or) then return v else answer (.evaluate right)
  | .var target => perform (Eval.lookup target)
  | .property object name => do
    let v ← answer (.evaluate object)
    perform (Eval.property v name)
  | .assign target value => answer (.assignment target value)
  | .setProperty object name value => answer (.propertyAssignment object name value)
  | .call callee paren arguments => answer (.invocation callee paren arguments)
  | .self keyword => perform (Eval.lookup keyword)
  | .inherited keyword method => perform (Eval.inherited keyword method)

/-- Calls a value. -/
def Value.script (host : Host) (callee : Value) (arguments : List Value) : Script Value :=
  match callee with
  | .native n => perform (Eval.callNative host n arguments)
  | .function f => answer (.callFunction f arguments)
  | .class c => do
    let i ← perform (Eval.newInstance c)
    match c.findMethod? initializerName with
    | some method =>
      let f ← perform (Eval.bindMethod method (.instance i))
      let _ ← answer (.call (.function f) arguments)
      return .instance i
    | none => return .instance i
  | _ => perform (throw .stuck)

/-- One round of a while statement. -/
def loopRound (condition : Expr) (body : Stmt) : Script Bool := do
  let v ← answer (.evaluate condition)
  if v.isTruthy then
    answer (.execute body)
    return true
  else return false

/-- One round of a for statement. -/
def forRound (condition increment : Option Expr) (body : Stmt) : Script Bool := do
  let holds ← (match condition with
    | some e => do return (← answer (.evaluate e)).isTruthy
    | none => return true)
  if holds then
    answer (.execute body)
    match increment with
    | some e =>
      let _ ← answer (.evaluate e)
      return true
    | none => return true
  else return false

/-- Executes a statement that has been counted. -/
def Stmt.script (host : Host) : Stmt → Script Unit
  | .expression value => do let _ ← answer (.evaluate value)
  | .print value => do
    let v ← answer (.evaluate value)
    perform (Eval.printLine v.text)
  | .var name none => perform (Eval.define name.lexeme .nil)
  | .var name (some e) => do
    let v ← answer (.evaluate e)
    perform (Eval.define name.lexeme v)
  | .block body => answer (.block body)
  | .branch condition yes no => do
    let v ← answer (.evaluate condition)
    if v.isTruthy then answer (.execute yes)
    else match no with
      | some no => answer (.execute no)
      | none => return
  | .loop condition body => Script.repeatWhile (loopRound condition body) host.rounds
  | .forLoop initializer condition increment body =>
    answer (.forLoop initializer condition increment body)
  | .function declaration => perform do
    let f ← Eval.newFunction declaration (← get).current
    Eval.define declaration.name.lexeme (.function f)
  | .return _ none => perform (throw (.returning .nil))
  | .return _ (some e) => do
    let v ← answer (.evaluate e)
    perform (throw (.returning v))
  | .class name none methods => perform (Eval.defineClass name.lexeme none methods)
  | .class name (some r) methods => do
    let c ← perform (Eval.superclass r)
    perform (Eval.defineClass name.lexeme (some c) methods)

namespace Task

/-- A function of the evaluator as a script. -/
def script (host : Host) : {α : Type} → Task α → Script α
  | _, evaluate e => e.script
  | _, binary left operator right => do
    let v ← answer (evaluate left)
    let w ← answer (evaluate right)
    perform (Eval.ofExcept .issue (Value.binary operator v w))
  | _, assignment target value => do
    let v ← answer (evaluate value)
    perform (Eval.assign target v)
    return v
  | _, propertyAssignment object name value => do
    let v ← answer (evaluate value)
    let o ← answer (evaluate object)
    perform (Eval.setProperty o name v)
    return v
  | _, invocation callee paren items => do
    let f ← answer (evaluate callee)
    let vs ← answer (arguments items)
    perform (Eval.checkCall f paren vs.length)
    answer (call f vs)
  | _, arguments items => Script.each (fun e ↦ answer (evaluate e)) items
  | _, call callee vs => callee.script host vs
  | _, callFunction f vs => do
    let names := f.declaration.parameters.map Token.lexeme
    let env ← perform (Eval.newFrame f.environment (.ofList (names.zip vs)))
    Script.body (enclose env (answer (execute f.declaration.body)))
  | _, execute st => do
    perform (Eval.step host)
    st.script host
  | _, block body => do
    let m ← perform get
    let env ← perform (Eval.newFrame m.current .empty)
    enclose env (body.forM fun st ↦ answer (execute st))
  | _, forLoop initializer condition increment body => do
    let m ← perform get
    let env ← perform (Eval.newFrame m.current .empty)
    let rounds := Script.repeatWhile (forRound condition increment body) host.rounds
    enclose env (match initializer with
      | some st => do
        answer (execute st)
        rounds
      | none => rounds)

/-- Does a task, with a number of nested calls that may still be made. -/
def run (host : Host) (nesting : Nat) : Answers
  | _, evaluate e => Eval.evaluate host nesting e
  | _, binary left operator right => Eval.evaluateBinary host nesting left operator right
  | _, assignment target value => Eval.evaluateAssignment host nesting target value
  | _, propertyAssignment object name value =>
    Eval.evaluatePropertyAssignment host nesting object name value
  | _, invocation callee paren items => Eval.evaluateCall host nesting callee paren items
  | _, arguments items => Eval.evaluateArguments host nesting items
  | _, call callee vs => Eval.call host nesting callee vs
  | _, callFunction f vs => Eval.callFunction host nesting f vs
  | _, execute st => Eval.execute host nesting st
  | _, block body => Eval.executeBlock host nesting body
  | _, forLoop initializer condition increment body =>
    Eval.executeFor host nesting initializer condition increment body

variable (host : Host) (nesting : Nat)

theorem run_evaluate (e : Expr) :
    Eval.evaluate host (nesting + 1) e = e.script.run (run host nesting) := by
  cases e with
  | logical left operator right =>
    rw [Eval.evaluate, Expr.script, Script.run_bind, Script.run_answer, run]
    refine congrArg _ (funext fun v ↦ ?_)
    split
    · rfl
    · rw [Script.run_answer, run]
  | _ =>
    simp only [Eval.evaluate, Expr.script, Script.run_bind, Script.run_answer, Script.run_perform,
      Script.run_pure, run]

theorem run_call (callee : Value) (arguments : List Value) :
    Eval.call host (nesting + 1) callee arguments
      = (callee.script host arguments).run (run host nesting) := by
  cases callee with
  | «class» c =>
    rw [Eval.call, Value.script, Script.run_bind, Script.run_perform]
    refine congrArg _ (funext fun i ↦ ?_)
    cases c.findMethod? initializerName with
    | none => rfl
    | some method =>
      simp only [Script.run_bind, Script.run_answer, Script.run_perform, Script.run_pure, run]
  | _ => simp only [Eval.call, Value.script, Script.run_answer, Script.run_perform, run]

theorem run_loopRound (condition : Expr) (body : Stmt) :
    (loopRound condition body).run (run host nesting) = (do
      if (← Eval.evaluate host nesting condition).isTruthy then
        Eval.execute host nesting body
        return true
      else return false) := by
  rw [loopRound, Script.run_bind, Script.run_answer, run]
  refine congrArg _ (funext fun v ↦ ?_)
  cases v.isTruthy with
  | true => simp only [if_true, Script.run_bind, Script.run_answer, Script.run_pure, run]
  | false => rfl

theorem run_execute (st : Stmt) :
    Eval.execute host (nesting + 1) st
      = Eval.step host >>= fun _ ↦ (st.script host).run (run host nesting) := by
  cases st with
  | var name initializer =>
    rw [Eval.execute.eq_def]
    cases initializer with
    | none => simp only [Stmt.script, Script.run_perform]; rfl
    | some e => simp only [Stmt.script, Script.run_bind, Script.run_answer, Script.run_perform, run]
  | branch condition yes no =>
    rw [Eval.execute.eq_def]
    simp only [Stmt.script, Script.run_bind, Script.run_answer, run]
    refine congrArg _ (funext fun _ ↦ congrArg _ (funext fun v ↦ ?_))
    cases v.isTruthy with
    | true => simp only [if_true, Script.run_answer, run]
    | false =>
      cases no with
      | none => rfl
      | some no => simp only [Bool.false_eq_true, if_false, Script.run_answer, run]
  | loop condition body =>
    rw [Eval.execute, Stmt.script, Script.run_repeatWhile, run_loopRound]
  | «return» keyword value =>
    rw [Eval.execute.eq_def]
    cases value with
    | none => simp only [Stmt.script, Script.run_perform]; rfl
    | some e => simp only [Stmt.script, Script.run_bind, Script.run_answer, Script.run_perform, run]
  | «class» name superclass methods =>
    rw [Eval.execute.eq_def]
    cases superclass with
    | none => simp only [Stmt.script, Script.run_perform]; rfl
    | some r =>
      simp only [Stmt.script, Script.run_bind, Script.run_perform, map_eq_pure_bind, bind_assoc,
        pure_bind]
  | _ =>
    simp only [Eval.execute, Stmt.script, Script.run_bind, Script.run_answer, Script.run_perform,
      Script.run_pure, run]

theorem run_forRound (condition increment : Option Expr) (body : Stmt) :
    (forRound condition increment body).run (run host nesting) = (do
      if ← (match condition with
        | some e => do return (← Eval.evaluate host nesting e).isTruthy
        | none => return true : Eval Bool) then
        Eval.execute host nesting body
        if let some e := increment then
          let _ ← Eval.evaluate host nesting e
        return true
      else return false) := by
  rw [forRound.eq_def, Script.run_bind]
  congr 1
  · cases condition with
    | none => rfl
    | some e => simp only [Script.run_bind, Script.run_answer, Script.run_pure, run]
  · funext holds
    cases holds with
    | false => rfl
    | true =>
      cases increment with
      | none => simp only [if_true, Script.run_bind, Script.run_answer, Script.run_pure, run]
      | some e => simp only [if_true, Script.run_bind, Script.run_answer, Script.run_pure, run]

theorem run_forLoop (initializer : Option Stmt) (condition increment : Option Expr) (body : Stmt) :
    Eval.executeFor host (nesting + 1) initializer condition increment body
      = ((forLoop initializer condition increment body).script host).run (run host nesting) := by
  rw [Eval.executeFor.eq_def]
  simp only [script, Script.run_bind, Script.run_perform, Script.run_enclose]
  have hrounds := (Script.run_repeatWhile _ host.rounds).trans
    (congrArg (Eval.repeatWhile · host.rounds) (run_forRound host nesting condition increment body))
  refine congrArg _ (funext fun _ ↦ congrArg _ (funext fun env ↦ congrArg _ ?_))
  cases initializer with
  | none => exact hrounds.symm
  | some st =>
    rw [Script.run_bind, Script.run_answer, hrounds]
    rfl

/-- The evaluator does what the scripts say. -/
theorem run_succ {α : Type} (t : Task α) :
    t.run host (nesting + 1) = (t.script host).run (run host nesting) := by
  cases t with
  | evaluate e => exact run_evaluate host nesting e
  | call callee arguments => exact run_call host nesting callee arguments
  | execute st =>
    rw [script, Script.run_bind, Script.run_perform]
    exact run_execute host nesting st
  | forLoop initializer condition increment body =>
    exact run_forLoop host nesting initializer condition increment body
  | _ =>
    simp only [run, script, Eval.evaluateBinary, Eval.evaluateAssignment,
      Eval.evaluatePropertyAssignment, Eval.evaluateCall, Eval.evaluateArguments, Eval.callFunction,
      Eval.executeBlock, Script.run_bind, Script.run_answer, Script.run_perform, Script.run_pure,
      Script.run_each, Script.run_forM, Script.run_enclose, Script.run_body]

end Task

end Lox
