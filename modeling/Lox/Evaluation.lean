import Lox.Machine

/-!
# Evaluation

The evaluator walks over the tree of a program whose names have been resolved.

Every function of the evaluator takes the number of nested calls that it may still make, and running
out of them is a runtime issue of the program. Since the count falls with each call, evaluation
terminates whatever the program does; loops do not use up nesting, and have a bound of their own on
the number of rounds.

Operands are evaluated from left to right, and so are a callee and its arguments, all of them before
the callee is looked at. An assignment to a property evaluates the new value first and the object
after it.
-/

namespace Lox.Eval

variable (host : Host)

mutual

def evaluate : Nat → Expr → Eval Value
  | 0, _ => overflow
  | nesting + 1, e => match e with
    | .literal value => return value.toValue
    | .group inner => evaluate nesting inner
    | .unary operator operand => do
      ofExcept .issue (Value.unary operator (← evaluate nesting operand))
    | .binary left operator right => evaluateBinary nesting left operator right
    | .logical left operator right => do
      let v ← evaluate nesting left
      if v.isTruthy = decide (operator.kind = .or) then return v else evaluate nesting right
    | .var target => lookup target
    | .property object name => do property (← evaluate nesting object) name
    | .assign target value => evaluateAssignment nesting target value
    | .setProperty object name value => evaluatePropertyAssignment nesting object name value
    | .call callee paren arguments => evaluateCall nesting callee paren arguments
    | .self keyword => lookup keyword
    | .inherited keyword method => inherited keyword method

def evaluateBinary : Nat → Expr → Token → Expr → Eval Value
  | 0, _, _, _ => overflow
  | nesting + 1, left, operator, right => do
    let v ← evaluate nesting left
    let w ← evaluate nesting right
    ofExcept .issue (Value.binary operator v w)

def evaluateAssignment : Nat → Reference → Expr → Eval Value
  | 0, _, _ => overflow
  | nesting + 1, target, value => do
    let v ← evaluate nesting value
    assign target v
    return v

def evaluatePropertyAssignment : Nat → Expr → Token → Expr → Eval Value
  | 0, _, _, _ => overflow
  | nesting + 1, object, name, value => do
    let v ← evaluate nesting value
    setProperty (← evaluate nesting object) name v
    return v

def evaluateCall : Nat → Expr → Token → List Expr → Eval Value
  | 0, _, _, _ => overflow
  | nesting + 1, callee, paren, arguments => do
    let f ← evaluate nesting callee
    let vs ← evaluateArguments nesting arguments
    checkCall f paren vs.length
    call nesting f vs

def evaluateArguments : Nat → List Expr → Eval (List Value)
  | 0, _ => overflow
  | nesting + 1, arguments => arguments.mapM (evaluate nesting)

/-- Calls a value with arguments whose number has been checked. The value of calling a class is the
new instance, whatever its initializer returns. -/
def call : Nat → Value → List Value → Eval Value
  | 0, _, _ => overflow
  | nesting + 1, callee, arguments => match callee with
    | .native n => callNative host n arguments
    | .function f => callFunction nesting f arguments
    | .class c => do
      let self := Value.instance (← newInstance c)
      if let some method := c.findMethod? initializerName then
        let _ ← call nesting (.function (← bindMethod method self)) arguments
      return self
    | _ => throw .stuck

/-- Runs the body of a function in a new scope that binds its parameters. -/
def callFunction : Nat → Closure → List Value → Eval Value
  | 0, _, _ => overflow
  | nesting + 1, f, arguments => do
    let names := f.declaration.parameters.map Token.lexeme
    let env ← newFrame f.environment (.ofList (names.zip arguments))
    catchReturn (within env (execute nesting f.declaration.body))

def execute : Nat → Stmt → Eval Unit
  | 0, _ => overflow
  | nesting + 1, s => do
    step host
    match s with
    | .expression value => let _ ← evaluate nesting value
    | .print value => printLine (← evaluate nesting value).text
    | .var name initializer =>
      let v ← match initializer with
        | some e => evaluate nesting e
        | none => pure .nil
      define name.lexeme v
    | .block body => executeBlock nesting body
    | .branch condition yes no =>
      if (← evaluate nesting condition).isTruthy then execute nesting yes
      else if let some no := no then execute nesting no
    | .loop condition body =>
      let round := do
        if (← evaluate nesting condition).isTruthy then
          execute nesting body
          return true
        else return false
      repeatWhile round host.rounds
    | .forLoop initializer condition increment body =>
      executeFor nesting initializer condition increment body
    | .function declaration =>
      let f ← newFunction declaration (← get).current
      define declaration.name.lexeme (.function f)
    | .return _ value =>
      let v ← match value with
        | some e => evaluate nesting e
        | none => pure .nil
      throw (.returning v)
    | .class name parent methods =>
      let parent ← match parent with
        | some r => some <$> superclass r
        | none => pure none
      defineClass name.lexeme parent methods

/-- Runs statements in a new scope. -/
def executeBlock : Nat → List Stmt → Eval Unit
  | 0, _ => overflow
  | nesting + 1, body => do
    let env ← newFrame (← get).current .empty
    within env (body.forM (execute nesting))

/-- Runs a loop in a scope of its own, which all rounds share. -/
def executeFor : Nat → Option Stmt → Option Expr → Option Expr → Stmt → Eval Unit
  | 0, _, _, _, _ => overflow
  | nesting + 1, initializer, condition, increment, body => do
    let env ← newFrame (← get).current .empty
    within env do
      if let some s := initializer then execute nesting s
      let holds : Eval Bool := match condition with
        | some e => do return (← evaluate nesting e).isTruthy
        | none => return true
      let round := do
        if ← holds then
          execute nesting body
          if let some e := increment then
            let _ ← evaluate nesting e
          return true
        else return false
      repeatWhile round host.rounds

end

/-- Runs a program. -/
def run (program : List Stmt) : Eval Unit := program.forM (execute host host.nesting)

end Lox.Eval
