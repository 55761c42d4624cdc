import Lox.Value.Operation

/-!
# Values of the lexical semantics

In the lexical semantics a name that is in scope stands for the location of a variable, and what is
in scope at a place never changes. A function keeps the names that were in scope where it was
declared, and nothing that is declared later is among them. Apart from that the values are those of
the language, and the operators are the same.
-/

namespace Lox.Lexical

/-- Where the value of a variable is kept. -/
abbrev Location := Nat

/-- The names in scope at a place, with their locations. A name that is not among them is looked for
among the globals. -/
abbrev Names := String → Option Location

namespace Names

/-- No name is in scope. -/
def none : Names := fun _ ↦ .none

/-- Puts a name in scope, in place of what it meant before. -/
def extend (names : Names) (x : String) (l : Location) : Names :=
  fun y ↦ if y = x then some l else names y

/-- Takes a name out of scope. -/
def remove (names : Names) (x : String) : Names := fun y ↦ if y = x then .none else names y

end Names

/-- A function together with the names in scope at its declaration. -/
structure Closure where
  id : Nat
  declaration : FunDecl
  names : Names

/-- A class together with the names in scope in its methods. -/
structure Class where
  id : Nat
  name : String
  superclass : Option Class
  methods : Bindings FunDecl
  names : Names

structure Instance where
  fields : RecordId
  «class» : Class

inductive Value where
  | nil
  | bool (value : Bool)
  | number (value : Float)
  | string (value : String)
  | native (n : Native)
  | function (f : Closure)
  | class (c : Class)
  | instance (i : Instance)

namespace Class

/-- The nearest method of a name, starting at a class and going up, with its names. -/
def findMethod? : Class → String → Option (FunDecl × Names)
  | ⟨_, _, superclass, methods, names⟩, x =>
    match methods.get? x with
    | some m => some (m, names)
    | none =>
      match superclass with
      | none => none
      | some c => c.findMethod? x

def arity (c : Class) : Nat :=
  match c.findMethod? initializerName with
  | some (m, _) => m.arity
  | none => 0

end Class

namespace Value

def ofLiteral : Literal → Value
  | .nil => nil
  | .bool b => bool b
  | .number x => number x
  | .string s => string s

def isTruthy : Value → Bool
  | nil => false
  | bool b => b
  | _ => true

def isEqual : Value → Value → Bool
  | nil, nil => true
  | bool a, bool b => a == b
  | number x, number y => x == y
  | string s, string t => s == t
  | native m, native n => m = n
  | function f, function g => f.id == g.id
  | «class» c, «class» d => c.id == d.id
  | «instance» i, «instance» j => i.fields == j.fields
  | _, _ => false

def text : Value → String
  | nil => "nil"
  | bool true => "true"
  | bool false => "false"
  | number x => Number.display.write x
  | string s => s
  | native _ => "<native fn>"
  | function f => "<fn " ++ f.declaration.name.lexeme ++ ">"
  | «class» c => c.name
  | «instance» i => i.class.name ++ " instance"

/-- The name and the number of arguments of a value that can be called. -/
def signature? : Value → Option (String × Nat)
  | native n => some (n.name, n.arity)
  | function f => some (f.declaration.name.lexeme, f.declaration.arity)
  | «class» c => some (c.name, c.arity)
  | _ => none

def unary (operator : Token) (operand : Value) : Except Issue Value :=
  match operator.kind, operand with
  | .bang, v => .ok (bool !v.isTruthy)
  | .minus, number x => .ok (number (-x))
  | .minus, _ => .error (.atToken operator .operandNotNumber)
  | _, _ => .error (.atToken operator (.unsupportedUnary operator.lexeme))

def arithmetic? (kind : Kind) (x y : Float) : Option Value :=
  match kind with
  | .minus => some (number (x - y))
  | .star => some (number (x * y))
  | .slash => some (number (x / y))
  | .greater => some (bool (y < x))
  | .greaterEqual => some (bool (y ≤ x))
  | .less => some (bool (x < y))
  | .lessEqual => some (bool (x ≤ y))
  | _ => none

def binary (operator : Token) (left right : Value) : Except Issue Value :=
  match operator.kind with
  | .equalEqual => .ok (bool (left.isEqual right))
  | .bangEqual => .ok (bool !left.isEqual right)
  | .plus =>
    match left, right with
    | number x, number y => .ok (number (x + y))
    | string s, string t => .ok (string (s ++ t))
    | _, _ => .error (.atToken operator .operandsNotAddable)
  | kind =>
    match left, right with
    | number x, number y =>
      match arithmetic? kind x y with
      | some v => .ok v
      | none => .error (.atToken operator (.unsupportedBinary operator.lexeme))
    | _, _ => .error (.atToken operator .operandsNotNumbers)

end Value

end Lox.Lexical
