import Lox.Environment
import Lox.Syntax

/-!
# Values

The values of the language. Functions, classes and instances have an identity, which is what
equality looks at; everything else about a function or a class is fixed when it is made, so it is
part of the value. The fields of an instance change, so they are a record in a store, and the number
of that record is the identity of the instance.

A class holds its superclass as it was when the class was declared. So the classes above a class
form a finite chain, whatever happens to the variables that named them. A method is not a value: it
becomes a function when it is bound to an instance. All methods of a class live in the same
environment.
-/

namespace Lox

/-- The functions that every program can use. -/
inductive Native where
  | clock
  | toString
  deriving DecidableEq, Repr

namespace Native

def all : List Native := [.clock, .toString]

def name : Native → String
  | clock => "clock"
  | toString => "toString"

def arity : Native → Nat
  | clock => 0
  | toString => 1

end Native

/-- A function together with the environment of its declaration. -/
structure Closure where
  id : Nat
  declaration : FunDecl
  environment : Environment

/-- A class. -/
structure Class where
  id : Nat
  name : String
  superclass : Option Class
  methods : Bindings FunDecl
  /-- The environment of the methods. -/
  environment : Environment

/-- An object of a class. -/
structure Instance where
  /-- The record that holds the fields. -/
  fields : RecordId
  «class» : Class

inductive Value where
  | nil
  | bool (value : Bool)
  | number (value : Float)
  | string (value : String)
  | native (n : Native)
  | function (f : Closure)
  | class (c : Class)
  | instance (i : Instance)

/-- The name with which an initializer is declared. -/
def initializerName : String := "init"

namespace Class

/-- The nearest method of a name, starting at a class and going up, with its environment. -/
def findMethod? : Class → String → Option (FunDecl × Environment)
  | ⟨_, _, superclass, methods, environment⟩, name =>
    match methods.get? name with
    | some m => some (m, environment)
    | none =>
      match superclass with
      | none => none
      | some c => c.findMethod? name

/-- A class takes as many arguments as its initializer, and none if it has no initializer. -/
def arity (c : Class) : Nat :=
  match c.findMethod? initializerName with
  | some (m, _) => m.arity
  | none => 0

end Class

def Literal.toValue : Literal → Value
  | nil => .nil
  | bool b => .bool b
  | number x => .number x
  | string s => .string s

namespace Value

/-- Everything but `nil` and `false` counts as true. -/
def isTruthy : Value → Bool
  | nil => false
  | bool b => b
  | _ => true

/-- Values of different kinds are never equal, and a number that is not one is not equal to
itself. -/
def isEqual : Value → Value → Bool
  | nil, nil => true
  | bool a, bool b => a == b
  | number x, number y => x == y
  | string s, string t => s == t
  | native m, native n => m = n
  | function f, function g => f.id == g.id
  | «class» c, «class» d => c.id == d.id
  | «instance» i, «instance» j => i.fields == j.fields
  | _, _ => false

/-- A value as a program prints it. -/
def text : Value → String
  | nil => "nil"
  | bool true => "true"
  | bool false => "false"
  | number x => Number.display.write x
  | string s => s
  | native _ => "<native fn>"
  | function f => "<fn " ++ f.declaration.name.lexeme ++ ">"
  | «class» c => c.name
  | «instance» i => i.class.name ++ " instance"

/-- The name and the number of arguments of a value that can be called. -/
def signature? : Value → Option (String × Nat)
  | native n => some (n.name, n.arity)
  | function f => some (f.declaration.name.lexeme, f.declaration.arity)
  | «class» c => some (c.name, c.arity)
  | _ => none

end Value

end Lox
