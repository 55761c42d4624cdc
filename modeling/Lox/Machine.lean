import Lox.Value.Operation

/-!
# The machine that programs run on

The machine is all that lasts while programs run: the frames of scopes, the fields of instances, the
environment that is current, and a few counts. Two frames exist from the start. The outer one binds
the built-in functions and the inner one the globals; a name without a distance is looked for in
these two, wherever it is used.

## Leaving early

A part of a program can end early in several ways, of which only one is ordinary: a return statement
leaves the function around it. All others leave the program. Whatever the way, the environment that
was current before a part is current again after it.
-/

namespace Lox

/-- What the surroundings of a program decide. -/
structure Host where
  /-- How many statements may be executed in the lifetime of a machine, if there is a limit. -/
  maxSteps : Option Int
  /-- The time in seconds when the clock is read for the `n`-th time, counted from zero. -/
  clock : Nat → Float
  /-- How many nested calls the evaluator may make, and likewise the parser and the resolver. -/
  nesting : Nat
  /-- How many rounds a loop may make. -/
  rounds : Nat

namespace Host

/-- The nesting that is admitted unless another bound is asked for. -/
def standardNesting : Nat := 10000

/-- A clock that starts at a time and goes on by a hundred-thousandth of a second whenever it is
read. -/
def steadyClock (start : Float) (reading : Nat) : Float := start + reading.toFloat * 1e-5

/-- A host with the usual bounds. There are more rounds than anybody can wait for. -/
def standard (maxSteps : Option Int) (start : Float) : Host where
  maxSteps := maxSteps
  clock := steadyClock start
  nesting := standardNesting
  rounds := Nat.pow 10 18

end Host

/-- The state of running programs. -/
structure Machine where
  /-- The frames of scopes. -/
  frames : Store Value
  /-- The fields of instances. -/
  objects : Store Value
  /-- The environment that is current. -/
  current : Environment
  /-- The identity that the next function or class is going to have. -/
  nextId : Nat
  /-- How many statements have been begun. -/
  steps : Nat
  /-- How many times the clock has been read. -/
  readings : Nat
  /-- The lines that have been printed, the latest first. -/
  printed : List String

/-- Why a part of a program ends early. -/
inductive Interrupt where
  /-- A return statement leaves the function around it. -/
  | returning (value : Value)
  | issue (issue : Issue)
  /-- A distance does not fit the frames. -/
  | desync (desync : Desync)
  /-- A value is of a kind that it cannot be of where it stands. -/
  | stuck
  /-- A loop made more rounds than the host admits. -/
  | exhausted

abbrev Eval := EStateM Interrupt Machine

namespace Machine

/-- The frame of the built-in functions. -/
def builtinFrame : RecordId := 0

/-- The frame of the globals. -/
def globalFrame : RecordId := 1

/-- The environment outside of all scopes. -/
def globals : Environment := [globalFrame, builtinFrame]

/-- A machine on which nothing has run. -/
def start : Machine where
  frames := (Store.empty.push (.ofList (Native.all.map fun n ↦ (n.name, .native n)))).push .empty
  objects := .empty
  current := globals
  nextId := 0
  steps := 0
  readings := 0
  printed := []

end Machine

namespace Eval

variable {α : Type}

/-! ## Leaving early -/

/-- Stops because of an issue. -/
def fail (token : Token) (cause : Issue.Cause) : Eval α := throw (.issue (.atToken token cause))

/-- The calls are nested too deeply. -/
def overflow : Eval α := throw (.issue (.anywhere .stackOverflow))

/-- Goes on with a result, or stops. -/
def ofExcept {ε : Type} (interrupt : ε → Interrupt) : Except ε α → Eval α
  | .ok a => return a
  | .error e => throw (interrupt e)

/-- Runs the body of a function. Its value is what a return statement says, or else `nil`. -/
def catchReturn (body : Eval Unit) : Eval Value := fun m ↦
  match body m with
  | .ok () m => .ok .nil m
  | .error (.returning v) m => .ok v m
  | .error interrupt m => .error interrupt m

/-! ## Frames and fields -/

/-- Makes a frame inside an environment. -/
def newFrame (outer : Environment) (b : Bindings Value) : Eval Environment :=
  modifyGet fun m ↦ (m.frames.next :: outer, { m with frames := m.frames.push b })

/-- Runs something in another environment. -/
def within (env : Environment) (p : Eval α) : Eval α := fun m ↦
  let previous := m.current
  match p { m with current := env } with
  | .ok a m => .ok a { m with current := previous }
  | .error interrupt m => .error interrupt { m with current := previous }

/-- Declares a variable in the current scope. -/
def define (name : String) (v : Value) : Eval Unit :=
  modify fun m ↦ { m with frames := m.frames.define m.current name v }

/-- What a name is bound to at a distance from the current scope. -/
def getAt (distance : Int) (name : String) : Eval Value := do
  let m ← get
  ofExcept .desync (m.frames.getAt m.current distance name)

/-- The value of a variable. -/
def lookup (r : Reference) : Eval Value := do
  match r.distance with
  | some distance => getAt distance r.name.lexeme
  | none =>
    match (← get).frames.get? Machine.globals r.name.lexeme with
    | some v => return v
    | none => fail r.name (.undefinedVariable r.name.lexeme)

/-- Which frame binds a variable. -/
def frameOf (r : Reference) : Eval RecordId := do
  let m ← get
  match r.distance with
  | some distance =>
    return (← ofExcept .desync (m.frames.findAt m.current distance r.name.lexeme)).1
  | none =>
    match m.frames.frameOf? Machine.globals r.name.lexeme with
    | some frame => return frame
    | none => fail r.name (.undefinedVariable r.name.lexeme)

/-- Assigns to a variable. -/
def assign (r : Reference) (v : Value) : Eval Unit := do
  let frame ← frameOf r
  modify fun m ↦ { m with frames := m.frames.bind frame r.name.lexeme v }

/-- A number that no function or class has had before. -/
def newId : Eval Nat := modifyGet fun m ↦ (m.nextId, { m with nextId := m.nextId + 1 })

/-- Makes an instance without fields. -/
def newInstance (c : Class) : Eval Instance :=
  modifyGet fun m ↦ (⟨m.objects.next, c⟩, { m with objects := m.objects.push .empty })

def setField (i : Instance) (name : String) (v : Value) : Eval Unit :=
  modify fun m ↦ { m with objects := m.objects.bind i.fields name v }

/-! ## Printing and counting -/

def printLine (line : String) : Eval Unit :=
  modify fun m ↦ { m with printed := line :: m.printed }

/-- Counts a statement that begins, and stops if it is one too many. -/
def step (host : Host) : Eval Unit := do
  modify fun m ↦ { m with steps := m.steps + 1 }
  match host.maxSteps with
  | none => return
  | some limit =>
    if limit < (← get).steps then throw (.issue (.anywhere (.stepLimit limit)))

/-- Repeats a round for as long as it asks for another one. -/
def repeatWhile (round : Eval Bool) : Nat → Eval Unit
  | 0 => throw .exhausted
  | rounds + 1 => do
    if ← round then repeatWhile round rounds

/-! ## Functions and classes -/

/-- Makes a function whose scope is inside an environment. -/
def newFunction (declaration : FunDecl) (env : Environment) : Eval Closure :=
  return ⟨← newId, declaration, env⟩

/-- Binds a method to an instance: the function lives in a scope of its own that binds `this`. -/
def bindMethod (method : FunDecl × Environment) (self : Value) : Eval Closure := do
  newFunction method.1 (← newFrame method.2 (.ofList [("this", self)]))

/-- Declares a class in the current scope. Its methods live in a scope of their own, which binds
`super` if there is a superclass. -/
def defineClass (name : String) (superclass : Option Class) (methods : List FunDecl) :
    Eval Unit := do
  let implicit := superclass.elim [] fun c ↦ [("super", .class c)]
  let env ← newFrame (← get).current (.ofList implicit)
  let methods := Bindings.ofList (methods.map fun m ↦ (m.name.lexeme, m))
  define name (.class ⟨← newId, name, superclass, methods, env⟩)

/-- The superclass that a class declaration names. -/
def superclass (r : Reference) : Eval Class := do
  match ← lookup r with
  | .class c => return c
  | _ => fail r.name .superclassNotClass

/-- Reads a property. A field hides a method of the same name. -/
def property (object : Value) (name : Token) : Eval Value := do
  match object with
  | .instance i =>
    match ((← get).objects.record i.fields).get? name.lexeme with
    | some v => return v
    | none =>
      match i.class.findMethod? name.lexeme with
      | some method => .function <$> bindMethod method object
      | none => fail name (.undefinedProperty name.lexeme)
  | _ => fail name .noProperties

/-- Assigns to a property. -/
def setProperty (object : Value) (name : Token) (v : Value) : Eval Unit :=
  match object with
  | .instance i => setField i name.lexeme v
  | _ => fail name .noFields

/-- Reads a method of the superclass. The scope of `this` is the one just inside that of `super`. -/
def inherited (keyword : Reference) (method : Token) : Eval Value := do
  match keyword.distance with
  | none => fail keyword.name .noSuperclass
  | some distance =>
    let parent ← getAt distance "super"
    let self ← getAt (distance - 1) "this"
    match parent with
    | .class c =>
      match c.findMethod? method.lexeme with
      | some m => .function <$> bindMethod m self
      | none => fail method (.undefinedProperty method.lexeme)
    | _ => throw .stuck

/-- Checks that something can be called with a number of arguments. -/
def checkCall (callee : Value) (paren : Token) (given : Nat) : Eval Unit :=
  match callee.signature? with
  | none => fail paren .notCallable
  | some (name, arity) =>
    if given = arity then pure () else fail paren (.wrongArity name arity given)

/-- Reads the clock. -/
def readClock (host : Host) : Eval Float :=
  modifyGet fun m ↦ (host.clock m.readings, { m with readings := m.readings + 1 })

/-- Calls a built-in function. -/
def callNative (host : Host) : Native → List Value → Eval Value
  | .clock, _ => .number <$> readClock host
  | .toString, arguments => return .string ((arguments.headD .nil).text)

end Eval

end Lox
