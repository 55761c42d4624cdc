import Lox.Token

/-!
# Runtime issues

What can go wrong while a program runs. An issue names the line of the token that is to blame;
running out of nesting or of steps is nobody's fault and has no line.
-/

namespace Lox

/-- The causes of runtime issues. -/
inductive Issue.Cause where
  | undefinedVariable (name : String)
  | undefinedProperty (name : String)
  /-- A property of something that is no instance is read. -/
  | noProperties
  /-- A property of something that is no instance is assigned to. -/
  | noFields
  | operandNotNumber
  | operandsNotNumbers
  | operandsNotAddable
  | unsupportedUnary (lexeme : String)
  | unsupportedBinary (lexeme : String)
  | notCallable
  | wrongArity (callee : String) (expected given : Nat)
  | superclassNotClass
  | noSuperclass
  | stackOverflow
  | stepLimit (limit : Int)
  deriving DecidableEq, Repr

def Issue.Cause.message : Issue.Cause → String
  | undefinedVariable name => "Undefined variable '" ++ name ++ "'."
  | undefinedProperty name => "Undefined property '" ++ name ++ "'."
  | noProperties => "Only instances have properties."
  | noFields => "Only instances have fields."
  | operandNotNumber => "Operand must be a number."
  | operandsNotNumbers => "Operands must be numbers."
  | operandsNotAddable => "Operands must be two numbers or two strings."
  | unsupportedUnary lexeme => "Unsupported unary operator '" ++ lexeme ++ "'."
  | unsupportedBinary lexeme => "Unsupported binary operator '" ++ lexeme ++ "'."
  | notCallable => "Can only call functions and classes."
  | wrongArity callee expected given =>
    "'" ++ callee ++ "' expected " ++ toString expected ++ " arguments but got " ++ toString given
      ++ "."
  | superclassNotClass => "Superclass must be a class."
  | noSuperclass => "Can't use 'super' in a class with no superclass."
  | stackOverflow => "Stack overflow."
  | stepLimit limit =>
    "Step limit of " ++ toString limit ++ " exceeded (possible infinite loop)."

/-- A runtime issue. -/
structure Issue where
  cause : Issue.Cause
  line : Option Int
  deriving DecidableEq, Repr

namespace Issue

def message (i : Issue) : String := i.cause.message

/-- An issue for which a token is to blame. -/
def atToken (token : Token) (cause : Cause) : Issue := ⟨cause, some token.line⟩

/-- An issue for which no token is to blame. -/
def anywhere (cause : Cause) : Issue := ⟨cause, none⟩

end Issue

end Lox
