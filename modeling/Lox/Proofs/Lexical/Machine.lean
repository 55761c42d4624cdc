import Lox.Machine
import Lox.Proofs.Lexical.Value

/-!
# The machine of the lexical semantics

The variables of all scopes are cells in one store, which only grows. The globals and the built-in
functions are found by name, when they are used. No distances occur, and there are no frames.
-/

namespace Lox.Lexical

/-- The state of running programs. -/
structure Machine where
  /-- The values of the local variables, by location. -/
  cells : Array Value
  globals : Bindings Value
  builtins : Bindings Value
  /-- The fields of instances. -/
  objects : Store Value
  /-- The identity that the next function or class is going to have. -/
  nextId : Nat
  steps : Nat
  readings : Nat
  /-- The lines that have been printed, the latest first. -/
  printed : List String

/-- Why a part of a program ends early. -/
inductive Interrupt where
  | returning (value : Value)
  | issue (issue : Issue)
  /-- A location holds nothing, or a value of a kind that it cannot be of. -/
  | stuck
  | exhausted

abbrev Eval := EStateM Interrupt Machine

/-- A machine on which nothing has run. -/
def Machine.start : Machine where
  cells := #[]
  globals := .empty
  builtins := .ofList (Native.all.map fun n ↦ (n.name, .native n))
  objects := .empty
  nextId := 0
  steps := 0
  readings := 0
  printed := []

/-- What a statement sees: the names in scope, and whether they are those of a local scope. Outside
of all scopes what is declared becomes a global. -/
structure Scope where
  isLocal : Bool
  names : Names

namespace Scope

/-- Outside of all scopes. -/
def outside : Scope := ⟨false, .none⟩

/-- A local scope, in which nothing has been declared yet. -/
def within (names : Names) : Scope := ⟨true, names⟩

end Scope

namespace Eval

variable {α : Type}

/-! ## Leaving early -/

def fail (token : Token) (cause : Issue.Cause) : Eval α := throw (.issue (.atToken token cause))

def overflow : Eval α := throw (.issue (.anywhere .stackOverflow))

/-- Goes on with a result, or stops because of an issue. -/
def ofExcept : Except Issue α → Eval α
  | .ok a => return a
  | .error i => throw (.issue i)

def catchReturn (body : Eval Unit) : Eval Value := fun m ↦
  match body m with
  | .ok () m => .ok .nil m
  | .error (.returning v) m => .ok v m
  | .error interrupt m => .error interrupt m

/-! ## Variables -/

/-- Keeps a value at a new location. -/
def allocate (v : Value) : Eval Location :=
  modifyGet fun m ↦ (m.cells.size, { m with cells := m.cells.push v })

def load (l : Location) : Eval Value := do
  match (← get).cells[l]? with
  | some v => return v
  | none => throw .stuck

/-- Declares a name. A local name stands for a new location from there on, and the value may refer
to the name itself. -/
def declare (scope : Scope) (x : String) (value : Names → Value) : Eval Scope := do
  if scope.isLocal then
    modifyGet fun m ↦
      let names := scope.names.extend x m.cells.size
      (.within names, { m with cells := m.cells.push (value names) })
  else
    modify fun m ↦ { m with globals := m.globals.insert x (value scope.names) }
    return scope

/-- Declares names one after the other. -/
def declareAll (scope : Scope) (entries : List (String × Value)) : Eval Scope :=
  entries.foldlM (fun scope e ↦ declare scope e.1 fun _ ↦ e.2) scope

/-- The value of a name. -/
def lookup (names : Names) (name : Token) : Eval Value := do
  match names name.lexeme with
  | some l => load l
  | none =>
    let m ← get
    match (m.globals.get? name.lexeme).or (m.builtins.get? name.lexeme) with
    | some v => return v
    | none => fail name (.undefinedVariable name.lexeme)

/-- Assigns to a name. -/
def assign (names : Names) (name : Token) (v : Value) : Eval Unit := do
  match names name.lexeme with
  | some l => modify fun m ↦ { m with cells := m.cells.setIfInBounds l v }
  | none =>
    let m ← get
    if m.globals.contains name.lexeme then
      set { m with globals := m.globals.insert name.lexeme v }
    else if m.builtins.contains name.lexeme then
      set { m with builtins := m.builtins.insert name.lexeme v }
    else fail name (.undefinedVariable name.lexeme)

/-! ## Printing and counting -/

def newId : Eval Nat := modifyGet fun m ↦ (m.nextId, { m with nextId := m.nextId + 1 })

def printLine (line : String) : Eval Unit :=
  modify fun m ↦ { m with printed := line :: m.printed }

def step (host : Host) : Eval Unit := do
  modify fun m ↦ { m with steps := m.steps + 1 }
  match host.maxSteps with
  | none => return
  | some limit =>
    if limit < (← get).steps then throw (.issue (.anywhere (.stepLimit limit)))

def repeatWhile (round : Eval Bool) : Nat → Eval Unit
  | 0 => throw .exhausted
  | rounds + 1 => do
    if ← round then repeatWhile round rounds

/-! ## Functions, classes and instances -/

def newInstance (c : Class) : Eval Instance :=
  modifyGet fun m ↦ (⟨m.objects.next, c⟩, { m with objects := m.objects.push .empty })

def setField (i : Instance) (x : String) (v : Value) : Eval Unit :=
  modify fun m ↦ { m with objects := m.objects.bind i.fields x v }

/-- Binds a method to an instance: `this` is in scope in it, at a new location. -/
def bindMethod (method : FunDecl × Names) (self : Value) : Eval Closure := do
  let l ← allocate self
  return ⟨← newId, method.1, method.2.extend "this" l⟩

/-- The names in scope in the methods of a class, from those in scope at its declaration. Without a
superclass there is no `super` among them. -/
def methodNames (superclass : Option Class) : Eval (Names → Names) := do
  match superclass with
  | none => return (Names.remove · "super")
  | some c =>
    let l ← allocate (.class c)
    return (Names.extend · "super" l)

/-- The superclass that a class declaration names. -/
def superclass (names : Names) (name : Token) : Eval Class := do
  match ← lookup names name with
  | .class c => return c
  | _ => fail name .superclassNotClass

def property (object : Value) (name : Token) : Eval Value := do
  match object with
  | .instance i =>
    match ((← get).objects.record i.fields).get? name.lexeme with
    | some v => return v
    | none =>
      match i.class.findMethod? name.lexeme with
      | some method => .function <$> bindMethod method object
      | none => fail name (.undefinedProperty name.lexeme)
  | _ => fail name .noProperties

def setProperty (object : Value) (name : Token) (v : Value) : Eval Unit :=
  match object with
  | .instance i => setField i name.lexeme v
  | _ => fail name .noFields

/-- Reads a method of the superclass, for the instance that `this` means. -/
def inherited (names : Names) (keyword method : Token) : Eval Value := do
  match names "super", names "this" with
  | some parent, some self =>
    let parent ← load parent
    let self ← load self
    match parent with
    | .class c =>
      match c.findMethod? method.lexeme with
      | some m => .function <$> bindMethod m self
      | none => fail method (.undefinedProperty method.lexeme)
    | _ => throw .stuck
  | _, _ => fail keyword .noSuperclass

def checkCall (callee : Value) (paren : Token) (given : Nat) : Eval Unit :=
  match callee.signature? with
  | none => fail paren .notCallable
  | some (name, arity) =>
    if given = arity then pure () else fail paren (.wrongArity name arity given)

def readClock (host : Host) : Eval Float :=
  modifyGet fun m ↦ (host.clock m.readings, { m with readings := m.readings + 1 })

def callNative (host : Host) : Native → List Value → Eval Value
  | .clock, _ => .number <$> readClock host
  | .toString, arguments => return .string ((arguments.headD .nil).text)

end Eval

end Lox.Lexical
