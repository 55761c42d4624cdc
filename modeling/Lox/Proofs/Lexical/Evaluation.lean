import Lox.Proofs.Lexical.Machine

/-!
# Evaluation with static scoping

What a program means if a name stands for the variable that was in scope where the name is written.
The names in scope are handed down as a value, and a declaration gives a new value to the statements
behind it. Of a use of a name only the name counts, and never its distance.

Everything that has nothing to do with names is as the language has it: the order of evaluation, the
bound on nested calls, the number of steps, the rounds of loops.
-/

namespace Lox.Lexical.Eval

variable (host : Host)

mutual

def evaluate : Nat → Names → Expr → Eval Value
  | 0, _, _ => overflow
  | nesting + 1, names, e => match e with
    | .literal value => return .ofLiteral value
    | .group inner => evaluate nesting names inner
    | .unary operator operand => do
      ofExcept (Value.unary operator (← evaluate nesting names operand))
    | .binary left operator right => evaluateBinary nesting names left operator right
    | .logical left operator right => do
      let v ← evaluate nesting names left
      if v.isTruthy = decide (operator.kind = .or) then return v
      else evaluate nesting names right
    | .var target => lookup names target.name
    | .property object name => do property (← evaluate nesting names object) name
    | .assign target value => evaluateAssignment nesting names target.name value
    | .setProperty object name value => evaluatePropertyAssignment nesting names object name value
    | .call callee paren arguments => evaluateCall nesting names callee paren arguments
    | .self keyword => lookup names keyword.name
    | .inherited keyword method => inherited names keyword.name method

def evaluateBinary : Nat → Names → Expr → Token → Expr → Eval Value
  | 0, _, _, _, _ => overflow
  | nesting + 1, names, left, operator, right => do
    let v ← evaluate nesting names left
    let w ← evaluate nesting names right
    ofExcept (Value.binary operator v w)

def evaluateAssignment : Nat → Names → Token → Expr → Eval Value
  | 0, _, _, _ => overflow
  | nesting + 1, names, target, value => do
    let v ← evaluate nesting names value
    assign names target v
    return v

def evaluatePropertyAssignment : Nat → Names → Expr → Token → Expr → Eval Value
  | 0, _, _, _, _ => overflow
  | nesting + 1, names, object, name, value => do
    let v ← evaluate nesting names value
    setProperty (← evaluate nesting names object) name v
    return v

def evaluateCall : Nat → Names → Expr → Token → List Expr → Eval Value
  | 0, _, _, _, _ => overflow
  | nesting + 1, names, callee, paren, arguments => do
    let f ← evaluate nesting names callee
    let vs ← evaluateArguments nesting names arguments
    checkCall f paren vs.length
    call nesting f vs

def evaluateArguments : Nat → Names → List Expr → Eval (List Value)
  | 0, _, _ => overflow
  | nesting + 1, names, arguments => arguments.mapM (evaluate nesting names)

def call : Nat → Value → List Value → Eval Value
  | 0, _, _ => overflow
  | nesting + 1, callee, arguments => match callee with
    | .native n => callNative host n arguments
    | .function f => callFunction nesting f arguments
    | .class c => do
      let self := Value.instance (← newInstance c)
      if let some method := c.findMethod? initializerName then
        let _ ← call nesting (.function (← bindMethod method self)) arguments
      return self
    | _ => throw .stuck

/-- Runs the body of a function, in which the parameters are in scope in place of the names that the
function has kept. -/
def callFunction : Nat → Closure → List Value → Eval Value
  | 0, _, _ => overflow
  | nesting + 1, f, arguments => do
    let names := f.declaration.parameters.map Token.lexeme
    let scope ← declareAll (.within f.names) (names.zip arguments)
    catchReturn do let _ ← execute nesting scope f.declaration.body

/-- Executes a statement, and says what is in scope behind it. -/
def execute : Nat → Scope → Stmt → Eval Scope
  | 0, _, _ => overflow
  | nesting + 1, scope, s => do
    step host
    match s with
    | .expression value =>
      let _ ← evaluate nesting scope.names value
      return scope
    | .print value =>
      printLine (← evaluate nesting scope.names value).text
      return scope
    | .var name initializer =>
      let v ← match initializer with
        | some e => evaluate nesting scope.names e
        | none => pure .nil
      declare scope name.lexeme fun _ ↦ v
    | .block body =>
      executeBlock nesting scope.names body
      return scope
    | .branch condition yes no =>
      if (← evaluate nesting scope.names condition).isTruthy then
        let _ ← execute nesting scope yes
      else if let some no := no then
        let _ ← execute nesting scope no
      return scope
    | .loop condition body =>
      let round := do
        if (← evaluate nesting scope.names condition).isTruthy then
          let _ ← execute nesting scope body
          return true
        else return false
      repeatWhile round host.rounds
      return scope
    | .forLoop initializer condition increment body =>
      executeFor nesting scope.names initializer condition increment body
      return scope
    | .function declaration =>
      let id ← newId
      declare scope declaration.name.lexeme fun names ↦ .function ⟨id, declaration, names⟩
    | .return _ value =>
      let v ← match value with
        | some e => evaluate nesting scope.names e
        | none => pure .nil
      throw (.returning v)
    | .class name parent methods =>
      let parent ← match parent with
        | some r => some <$> superclass scope.names r.name
        | none => pure none
      let inside ← methodNames parent
      let id ← newId
      let methods := Bindings.ofList (methods.map fun m ↦ (m.name.lexeme, m))
      declare scope name.lexeme fun names ↦
        .class ⟨id, name.lexeme, parent, methods, inside names⟩

def executeBlock : Nat → Names → List Stmt → Eval Unit
  | 0, _, _ => overflow
  | nesting + 1, names, body => do
    let _ ← body.foldlM (execute nesting) (.within names)

/-- Runs a loop. All rounds see the variable that the initializer declares. -/
def executeFor : Nat → Names → Option Stmt → Option Expr → Option Expr → Stmt → Eval Unit
  | 0, _, _, _, _, _ => overflow
  | nesting + 1, names, initializer, condition, increment, body => do
    let scope ← match initializer with
      | some s => execute nesting (.within names) s
      | none => pure (.within names)
    let holds : Eval Bool := match condition with
      | some e => do return (← evaluate nesting scope.names e).isTruthy
      | none => return true
    let round := do
      if ← holds then
        let _ ← execute nesting scope body
        if let some e := increment then
          let _ ← evaluate nesting scope.names e
        return true
      else return false
    repeatWhile round host.rounds

end

/-- Runs a program. -/
def run (program : List Stmt) : Eval Unit := do
  let _ ← program.foldlM (execute host host.nesting) .outside

end Lox.Lexical.Eval
