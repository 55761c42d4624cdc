import Lox.Token

/-!
# The syntax of programs

A use of a name is a `Reference`: the token that names it, and how many scopes lie between the use
and the declaration. Parsing leaves that distance open and scope resolution fills it in, so a
resolved program is again a program, and evaluating needs nothing else beside it.

The two forms of assignment are two constructors, since what may stand left of the equals sign is a
name or a property and nothing else. A property is never resolved, so its name is a plain token.
-/

namespace Lox

/-- A use of a name. Without a distance the name is looked up among the globals. -/
structure Reference where
  name : Token
  distance : Option Nat
  deriving DecidableEq, Repr

/-- Expressions. -/
inductive Expr where
  | literal (value : Literal)
  | group (inner : Expr)
  | unary (operator : Token) (operand : Expr)
  | binary (left : Expr) (operator : Token) (right : Expr)
  | logical (left : Expr) (operator : Token) (right : Expr)
  | var (target : Reference)
  | property (object : Expr) (name : Token)
  | assign (target : Reference) (value : Expr)
  | setProperty (object : Expr) (name : Token) (value : Expr)
  | call (callee : Expr) (paren : Token) (arguments : List Expr)
  | self (keyword : Reference)
  | inherited (keyword : Reference) (method : Token)
  deriving Repr

mutual

/-- Statements and declarations. -/
inductive Stmt where
  | expression (value : Expr)
  | print (value : Expr)
  | var (name : Token) (initializer : Option Expr)
  | block (body : List Stmt)
  | branch (condition : Expr) (yes : Stmt) (no : Option Stmt)
  | loop (condition : Expr) (body : Stmt)
  | forLoop (initializer : Option Stmt) (condition : Option Expr) (increment : Option Expr)
      (body : Stmt)
  | function (declaration : FunDecl)
  | return (keyword : Token) (value : Option Expr)
  | class (name : Token) (superclass : Option Reference) (methods : List FunDecl)

/-- A function or a method. Its body may be any statement that is no declaration. -/
inductive FunDecl where
  | mk (name : Token) (parameters : List Token) (body : Stmt)

end

namespace FunDecl

def name : FunDecl → Token
  | mk name _ _ => name

def parameters : FunDecl → List Token
  | mk _ parameters _ => parameters

def body : FunDecl → Stmt
  | mk _ _ body => body

def arity (f : FunDecl) : Nat := f.parameters.length

end FunDecl

/-- The name under which an expression node is shown. -/
def Expr.nodeName : Expr → String
  | literal _ => "LiteralExpression"
  | group _ => "GroupingExpression"
  | unary _ _ => "UnaryExpression"
  | binary _ _ _ => "BinaryExpression"
  | logical _ _ _ => "LogicalExpression"
  | var _ => "VariableExpression"
  | property _ _ => "PropertyExpression"
  | assign _ _ => "AssignExpression"
  | setProperty _ _ _ => "AssignExpression"
  | call _ _ _ => "CallExpression"
  | self _ => "ThisExpression"
  | inherited _ _ => "SuperExpression"

/-- The name under which a statement node is shown. -/
def Stmt.nodeName : Stmt → String
  | expression _ => "ExpressionStatement"
  | print _ => "PrintStatement"
  | var _ _ => "VarStatement"
  | block _ => "BlockStatement"
  | branch _ _ _ => "IfStatement"
  | loop _ _ => "WhileStatement"
  | forLoop _ _ _ _ => "ForStatement"
  | function _ => "FunctionStatement"
  | «return» _ _ => "ReturnStatement"
  | «class» _ _ _ => "ClassStatement"

end Lox
