import Lox.Bindings
import Lox.Syntax

/-!
# Scopes

A walk over a program that finds, for every use of a name, how many scopes lie between the use and
the declaration it means. The distances are written into the program itself.

## Scopes

Scopes open at blocks, at for statements, and at the parameters of functions and methods. A class
opens two, one for `super` and one for `this` inside it; the outer one exists even where there is no
superclass, so that what a method is distant from does not depend on one. Outside of all scopes
there are the globals, which are never declared: a name that no scope declares is theirs.

A name is declared before its initializer is looked at, and is ready only after it. That is how a
variable that reads itself is noticed.

## Nesting

As in parsing, the number of nested calls is bounded. A level of the program costs one of them or a
few, and the walk stops when a program is too deep for that. What was found up to there is kept.
-/

namespace Lox

/-- A static error about names. -/
inductive ScopeError where
  | redeclared
  | ownInitializer
  | selfInheritance
  deriving DecidableEq, Repr

def ScopeError.message : ScopeError → String
  | redeclared => "Already a variable with this name in this scope."
  | ownInitializer => "Can't read local variable in its own initializer."
  | selfInheritance => "A class can't inherit from itself."

namespace Scoping

/-- How a name is used. -/
inductive Use where
  /-- A variable is read or assigned to. -/
  | variable
  | self
  | inherited
  deriving DecidableEq, Repr

/-- A use of a name together with the number of scopes out to its declaration. The reference is the
one that stands in the program, as the walk met it. -/
structure Finding where
  use : Use
  reference : Reference
  distance : Nat
  deriving DecidableEq, Repr

def Finding.name (x : Finding) : Token := x.reference.name

/-- The class around the current position, as far as `super` is concerned. -/
inductive Setting where
  | noClass
  | plainClass
  | subclass
  deriving DecidableEq, Repr

/-- The name of a declaration in a scope is bound to whether its initializer is done with. -/
abbrev Scope := Bindings Bool

/-- What changes during the walk. -/
structure State where
  /-- The scopes around the current position, the innermost first. -/
  scopes : List Scope
  setting : Setting
  /-- The errors, the latest first. -/
  errors : List (Token × ScopeError)
  /-- The uses for which a declaration was found, the latest first. -/
  findings : List Finding

/-- The program is nested too deeply. -/
inductive TooDeep where
  | tooDeep
  deriving DecidableEq, Repr

abbrev Resolve := EStateM TooDeep State

/-! ## Scopes and names -/

def report (name : Token) (error : ScopeError) : Resolve Unit :=
  modify fun s ↦ { s with errors := (name, error) :: s.errors }

/-- Binds a name in the innermost scope, if there is any. -/
def bind (name : String) (ready : Bool) : Resolve Unit :=
  modify fun s ↦ match s.scopes with
    | [] => s
    | scope :: outer => { s with scopes := scope.insert name ready :: outer }

/-- Declares a name, which may have been declared in this scope before. -/
def declare (name : Token) : Resolve Unit := do
  if (← get).scopes.head?.any fun scope ↦ scope.contains name.lexeme then
    report name .redeclared
  bind name.lexeme false

/-- Declares a name that has no initializer. -/
def declareReady (name : Token) : Resolve Unit := do
  declare name
  bind name.lexeme true

/-- The number of scopes that are left before a name is declared. -/
def distance? (name : String) (scopes : List Scope) : Option Nat :=
  scopes.findIdx? fun scope ↦ scope.contains name

/-- Fills in the distance to the declaration that a use of a name means. -/
def locate (use : Use) (r : Reference) : Resolve Reference := do
  let distance := distance? r.name.lexeme (← get).scopes
  if let some d := distance then
    modify fun s ↦ { s with findings := ⟨use, r, d⟩ :: s.findings }
  return ⟨r.name, distance⟩

/-- Locates a variable that is read. Only the innermost scope can be the one that is initializing a
variable of that name. -/
def read (r : Reference) : Resolve Reference := do
  if (← get).scopes.head?.any fun scope ↦ scope.get? r.name.lexeme = some false then
    report r.name .ownInitializer
  locate .variable r

/-- Does something inside a new scope, which is left in any case. -/
def withScope {α : Type} (p : Resolve α) : Resolve α := fun s ↦
  match p { s with scopes := .empty :: s.scopes } with
  | .ok a s => .ok a { s with scopes := s.scopes.tail }
  | .error e s => .error e { s with scopes := s.scopes.tail }

/-- Does something inside a class, which is left in any case. -/
def withSetting {α : Type} (setting : Setting) (p : Resolve α) : Resolve α := fun s ↦
  match p { s with setting } with
  | .ok a s' => .ok a { s' with setting := s.setting }
  | .error e s' => .error e { s' with setting := s.setting }

/-! ## The walk -/

/-- An expression. The value of an assignment comes before its target. -/
def expression : Nat → Expr → Resolve Expr
  | 0, _ => throw .tooDeep
  | nesting + 1, e => match e with
    | .literal value => return .literal value
    | .group inner => .group <$> expression nesting inner
    | .unary operator operand => .unary operator <$> expression nesting operand
    | .binary left operator right => do
      let left ← expression nesting left
      return .binary left operator (← expression nesting right)
    | .logical left operator right => do
      let left ← expression nesting left
      return .logical left operator (← expression nesting right)
    | .var target => .var <$> read target
    | .property object name => (.property · name) <$> expression nesting object
    | .assign target value => do
      let value ← expression nesting value
      return .assign (← locate .variable target) value
    | .setProperty object name value => do
      let value ← expression nesting value
      return .setProperty (← expression nesting object) name value
    | .call callee paren arguments => do
      let callee ← expression nesting callee
      return .call callee paren (← arguments.mapM (expression nesting))
    | .self keyword => .self <$> locate .self keyword
    | .inherited keyword method => do
      if (← get).setting = .subclass then
        return .inherited (← locate .inherited keyword) method
      else return .inherited ⟨keyword.name, none⟩ method

/-- A part that may be absent. -/
def optional {α β : Type} (walk : α → Resolve β) : Option α → Resolve (Option β)
  | none => return none
  | some a => some <$> walk a

/-- The superclass of a class. -/
def superclass (subclass : Token) (r : Reference) : Resolve Reference := do
  if r.name.lexeme = subclass.lexeme then report r.name .selfInheritance
  read r

/-- What is inside a class with or without a superclass. -/
def withClassScopes {α : Type} (inherits : Bool) (p : Resolve α) : Resolve α :=
  withScope do
    if inherits then bind "super" true
    withScope do
      bind "this" true
      p

mutual

def statement : Nat → Stmt → Resolve Stmt
  | 0, _ => throw .tooDeep
  | nesting + 1, s => match s with
    | .expression value => .expression <$> expression nesting value
    | .print value => .print <$> expression nesting value
    | .var name initializer => do
      declare name
      let initializer ← optional (expression nesting) initializer
      bind name.lexeme true
      return .var name initializer
    | .block body => .block <$> withScope (statements nesting body)
    | .branch condition yes no => do
      let condition ← expression nesting condition
      let yes ← statement nesting yes
      return .branch condition yes (← optional (statement nesting) no)
    | .loop condition body => do
      let condition ← expression nesting condition
      return .loop condition (← statement nesting body)
    | .forLoop initializer condition increment body => withScope do
      let initializer ← optional (statement nesting) initializer
      let condition ← optional (expression nesting) condition
      let body ← statement nesting body
      return .forLoop initializer condition (← optional (expression nesting) increment) body
    | .function declaration => do
      declareReady declaration.name
      .function <$> function nesting declaration
    | .return keyword value => .return keyword <$> optional (expression nesting) value
    | .class name parent methods => classDeclaration nesting name parent methods

/-- The statements of a block. -/
def statements : Nat → List Stmt → Resolve (List Stmt)
  | 0, _ => throw .tooDeep
  | nesting + 1, body => body.mapM (statement nesting)

def classDeclaration : Nat → Token → Option Reference → List FunDecl → Resolve Stmt
  | 0, _, _, _ => throw .tooDeep
  | nesting + 1, name, parent, methods =>
    withSetting (if parent.isSome then .subclass else .plainClass) do
      declareReady name
      let parent ← optional (superclass name) parent
      .class name parent <$> withClassScopes parent.isSome (classMethods nesting methods)

/-- The methods of a class, inside its scopes. -/
def classMethods : Nat → List FunDecl → Resolve (List FunDecl)
  | 0, _ => throw .tooDeep
  | nesting + 1, methods => methods.mapM (function nesting)

/-- A function or a method, whose name has been dealt with. -/
def function : Nat → FunDecl → Resolve FunDecl
  | 0, _ => throw .tooDeep
  | nesting + 1, .mk name parameters body => withScope do
    parameters.forM declareReady
    .mk name parameters <$> statement nesting body

end

end Scoping

/-- The outcome of the walk: the program with its distances, unless it was too deep, and what was
found on the way, in order. -/
structure Resolved (α : Type) where
  result : Option α
  errors : List (Token × ScopeError)
  findings : List Scoping.Finding

namespace Scoping

/-- Runs the walk from outside of all scopes. -/
def run {α : Type} (p : Resolve α) : Resolved α :=
  match p ⟨[], .noClass, [], []⟩ with
  | .ok a s => ⟨some a, s.errors.reverse, s.findings.reverse⟩
  | .error _ s => ⟨none, s.errors.reverse, s.findings.reverse⟩

end Scoping

/-- Resolves the names of a program with a bound on nesting. -/
def resolveProgram (nesting : Nat) (program : List Stmt) : Resolved (List Stmt) :=
  Scoping.run (program.mapM (Scoping.statement nesting))

/-- Resolves the names of a single expression with a bound on nesting. -/
def resolveExpression (nesting : Nat) (e : Expr) : Resolved Expr :=
  Scoping.run (Scoping.expression nesting e)

end Lox
