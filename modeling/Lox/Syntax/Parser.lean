import Lox.Syntax

/-!
# Parsing

Recursive descent over the tokens of a program. Binary operators are ordered in six levels, which
are data, so one function serves them all.

## Errors

A complaint is about a token. Most complaints end the declaration in which they arise: it is
dropped, the parser skips to a place where a statement may begin, and goes on. A few are only noted,
because the parser knows how to continue: too many arguments or parameters, a return outside of a
function, and an assignment to something that cannot be assigned to.

## Nesting

Every function takes the number of nested calls that it may still make, and each call is made with
one less. A program that needs more is nested too deeply, which ends parsing as a whole. Rows of
things, such as the operands of a chain of sums, are read in loops and use up no nesting; a loop
takes a bound on its length instead. Every round of a loop takes at least one token, so the number
of tokens is bound enough.
-/

namespace Lox

/-- What is wrong with a row of tokens. -/
inductive SyntaxError where
  /-- Something is missing. -/
  | expected (what : String)
  /-- A row of things is too long. -/
  | tooMany (what : String)
  | topLevelReturn
  | invalidTarget
  deriving DecidableEq, Repr

/-- The greatest number of parameters and of arguments. -/
def maxArguments : Nat := 255

def SyntaxError.message : SyntaxError → String
  | expected what => "Expect " ++ what ++ "."
  | tooMany what => "Can't have more than " ++ toString maxArguments ++ " " ++ what ++ "."
  | topLevelReturn => "Can't return from top-level code."
  | invalidTarget => "Invalid assignment target."

/-- The levels of binary operators, the loosest first. -/
inductive Level where
  | or | and | equality | comparison | sum | product
  deriving DecidableEq, Repr

namespace Level

/-- The next tighter level, if that is one of binary operators again. -/
def tighter? : Level → Option Level
  | or => some and
  | and => some equality
  | equality => some comparison
  | comparison => some sum
  | sum => some product
  | product => none

/-- Whether a token of this kind is an operator of this level. -/
def hasOperator : Level → Kind → Bool
  | or, .or => true
  | and, .and => true
  | equality, .equalEqual | equality, .bangEqual => true
  | comparison, .greater | comparison, .greaterEqual => true
  | comparison, .less | comparison, .lessEqual => true
  | sum, .plus | sum, .minus => true
  | product, .star | product, .slash => true
  | _, _ => false

/-- The node for an operator of this level. -/
def join : Level → Expr → Token → Expr → Expr
  | or | and => .logical
  | _ => .binary

end Level

namespace Parser

/-- What is fixed while a program is parsed. -/
structure Input where
  /-- The token that marks the end. -/
  finish : Token
  /-- A bound on the length of every loop. -/
  size : Nat

/-- What changes while a program is parsed. -/
structure State where
  /-- The tokens that are left, without the one that marks the end. -/
  rest : List Token
  /-- The number of functions around the current position. -/
  functions : Nat
  /-- The complaints, the latest first. -/
  errors : List (Token × SyntaxError)

/-- Why parsing stops early. -/
inductive Abort where
  /-- A complaint was made that ends the declaration. -/
  | fault
  /-- The program is nested too deeply. -/
  | tooDeep
  /-- A loop went on for longer than its bound allows. -/
  | exhausted
  deriving DecidableEq, Repr

abbrev Parse := EStateM Abort State

/-! ## Single tokens -/

variable (input : Input)

/-- The next token, or the one that marks the end. -/
def peek : Parse Token := fun s ↦ .ok (s.rest.headD input.finish) s

/-- Takes the next token. -/
def advance : Parse Unit := fun s ↦ .ok () { s with rest := s.rest.tail }

/-- Whether the next token exists and is of a kind that is asked for. -/
def check (p : Kind → Bool) : Parse Bool := fun s ↦ .ok (s.rest.head?.any fun t ↦ p t.kind) s

/-- Takes the next token if it is of a kind that is asked for. -/
def acceptIf (p : Kind → Bool) : Parse (Option Token) := fun s ↦
  match s.rest with
  | [] => .ok none s
  | t :: rest => if p t.kind then .ok (some t) { s with rest } else .ok none s

/-- Takes the next token if it is of the kind that is asked for. -/
def accept (kind : Kind) : Parse (Option Token) := acceptIf fun k ↦ decide (k = kind)

/-- Makes a complaint and goes on. -/
def report (token : Token) (error : SyntaxError) : Parse Unit := fun s ↦
  .ok () { s with errors := (token, error) :: s.errors }

/-- Makes a complaint about the next token and gives up the declaration. -/
def fail {α : Type} (error : SyntaxError) : Parse α := fun s ↦
  .error .fault { s with errors := (s.rest.headD input.finish, error) :: s.errors }

/-- Takes a token of the kind that is asked for, or complains. -/
def expect (kind : Kind) (what : String) : Parse Token := do
  match ← accept kind with
  | some t => return t
  | none => fail input (.expected what)

def tooDeep {α : Type} : Parse α := throw .tooDeep

/-! ## Recovery -/

/-- Skips to just after a semicolon or to just before a token that starts a statement, when
`previous` is the last token that was taken. -/
def skipFrom (previous : Token) : List Token → List Token
  | [] => []
  | t :: rest =>
    if previous.kind = .semicolon ∨ t.kind.startsStatement then t :: rest else skipFrom t rest

/-- Drops one token, whatever it is, and skips to a place where a statement may begin. -/
def resume : List Token → List Token
  | [] => []
  | t :: rest => skipFrom t rest

/-- Parses a declaration. If it is given up, the parser skips what is left of it. -/
def recovering {α : Type} (p : Parse α) : Parse (Option α) := fun s ↦
  match p s with
  | .ok a s => .ok (some a) s
  | .error .fault s => .ok none { s with rest := resume s.rest }
  | .error abort s => .error abort s

/-- Parses what is inside a function. -/
def insideFunction {α : Type} (p : Parse α) : Parse α := fun s ↦
  match p { s with functions := s.functions + 1 } with
  | .ok a s' => .ok a { s' with functions := s.functions }
  | .error abort s' => .error abort { s' with functions := s.functions }

/-! ## Loops -/

/-- Operands joined by operators, grouped to the left. -/
def chain (operand : Parse Expr) (isOperator : Kind → Bool) (join : Expr → Token → Expr → Expr) :
    Nat → Expr → Parse Expr
  | 0, _ => throw .exhausted
  | bound + 1, left => do
    match ← acceptIf isOperator with
    | none => return left
    | some operator =>
      let right ← operand
      chain operand isOperator join bound (join left operator right)

/-- Items up to the end of the input or to a token of a kind that stops them. The items read so far
are given in reverse. -/
def many {α : Type} (stops : Kind → Bool) (item : Parse α) : Nat → List α → Parse (List α)
  | 0, _ => throw .exhausted
  | bound + 1, read => do
    if ← check fun k ↦ !stops k then
      let a ← item
      many stops item bound (a :: read)
    else return read.reverse

/-- One or more items with commas between them. Each item beyond the first `room` is complained
about at the token that starts it. -/
def commaSeparated {α : Type} (what : String) (item : Parse α) :
    Nat → Nat → List α → Parse (List α)
  | 0, _, _ => throw .exhausted
  | bound + 1, room, read => do
    if room = 0 then report (← peek input) (.tooMany what)
    let a ← item
    match ← accept .comma with
    | none => return (a :: read).reverse
    | some _ => commaSeparated what item bound (room - 1) (a :: read)

/-- Perhaps some items with commas between them, before a closing parenthesis. -/
def listed {α : Type} (what : String) (item : Parse α) : Parse (List α) := do
  if ← check fun k ↦ decide (k = .rightParen) then return []
  else commaSeparated input what item input.size maxArguments []

/-- Calls and property accesses after an operand, grouped to the left. -/
def suffixes (arguments : Expr → Parse Expr) : Nat → Expr → Parse Expr
  | 0, _ => throw .exhausted
  | bound + 1, operand => do
    match ← accept .leftParen with
    | some _ => suffixes arguments bound (← arguments operand)
    | none =>
      match ← accept .dot with
      | some _ =>
        let name ← expect input .identifier "property name after '.'"
        suffixes arguments bound (.property operand name)
      | none => return operand

/-! ## Expressions -/

mutual

def expression : Nat → Parse Expr
  | 0 => tooDeep
  | nesting + 1 => assignment nesting

/-- An assignment is parsed as an expression first; only the equals sign shows what it is. -/
def assignment : Nat → Parse Expr
  | 0 => tooDeep
  | nesting + 1 => do
    let target ← binary nesting .or
    match ← accept .equal with
    | none => return target
    | some equals =>
      let value ← assignment nesting
      match target with
      | .var reference => return .assign reference value
      | .property object name => return .setProperty object name value
      | other => do
        report equals .invalidTarget
        return other

def binary : Nat → Level → Parse Expr
  | 0, _ => tooDeep
  | nesting + 1, level => do
    let operand := match level.tighter? with
      | some tighter => binary nesting tighter
      | none => unary nesting
    let left ← operand
    chain operand level.hasOperator level.join input.size left

def unary : Nat → Parse Expr
  | 0 => tooDeep
  | nesting + 1 => do
    match ← acceptIf fun k ↦ decide (k = .bang ∨ k = .minus) with
    | some operator => return .unary operator (← unary nesting)
    | none => call nesting

def call : Nat → Parse Expr
  | 0 => tooDeep
  | nesting + 1 => do
    let operand ← primary nesting
    suffixes input (callArguments nesting) input.size operand

def callArguments : Nat → Expr → Parse Expr
  | 0, _ => tooDeep
  | nesting + 1, callee => do
    let arguments ← listed input "arguments" (expression nesting)
    let paren ← expect input .rightParen "')' after arguments"
    return .call callee paren arguments

def primary : Nat → Parse Expr
  | 0 => tooDeep
  | nesting + 1 => do
    let t ← peek input
    match t.kind with
    | .false => advance; return .literal (.bool false)
    | .true => advance; return .literal (.bool true)
    | .nil => advance; return .literal .nil
    | .number | .string => advance; return .literal t.value
    | .this => advance; return .self ⟨t, none⟩
    | .super =>
      advance
      let _ ← expect input .dot "'.' after 'super'"
      let method ← expect input .identifier "superclass method name"
      return .inherited ⟨t, none⟩ method
    | .identifier => advance; return .var ⟨t, none⟩
    | .leftParen =>
      advance
      let inner ← expression nesting
      let _ ← expect input .rightParen "')' after expression"
      return .group inner
    | _ => fail input (.expected "expression")

end

/-- An expression, unless the next token says that there is none. -/
def expressionUnless (stop : Kind) (nesting : Nat) : Parse (Option Expr) := do
  if ← check fun k ↦ decide (k = stop) then return none
  else return some (← expression input nesting)

/-! ## Statements -/

def expressionStatement : Nat → Parse Stmt
  | 0 => tooDeep
  | nesting + 1 => do
    let value ← expression input nesting
    let _ ← expect input .semicolon "';' after expression"
    return .expression value

/-- The rest of a variable declaration. -/
def varDeclaration : Nat → Parse Stmt
  | 0 => tooDeep
  | nesting + 1 => do
    let name ← expect input .identifier "variable name"
    let initializer ← match ← accept .equal with
      | some _ => some <$> expression input nesting
      | none => pure none
    let _ ← expect input .semicolon "';' after variable declaration"
    return .var name initializer

/-- The rest of a return statement. -/
def returnStatement (keyword : Token) : Nat → Parse Stmt
  | 0 => tooDeep
  | nesting + 1 => do
    if (← get).functions = 0 then report keyword .topLevelReturn
    let value ← expressionUnless input .semicolon nesting
    let _ ← expect input .semicolon "';' after return value"
    return .return keyword value

/-- The name and the parameters of a function or a method. -/
def functionHead (what : String) : Parse (Token × List Token) := do
  let name ← expect input .identifier (what ++ " name")
  let _ ← expect input .leftParen ("'(' after " ++ what ++ " name")
  let parameters ← listed input "parameters" (expect input .identifier "parameter name")
  let _ ← expect input .rightParen "')' after parameters"
  return (name, parameters)

mutual

/-- A declaration or a statement, or nothing where one was given up. -/
def declaration : Nat → Parse (Option Stmt)
  | 0 => tooDeep
  | nesting + 1 => recovering do
    match (← peek input).kind with
    | .var => advance; varDeclaration input nesting
    | .class => advance; classDeclaration nesting
    | .fun => advance; .function <$> function "function" nesting
    | _ => statement nesting

/-- The rest of a class declaration. -/
def classDeclaration : Nat → Parse Stmt
  | 0 => tooDeep
  | nesting + 1 => do
    let name ← expect input .identifier "class name"
    let superclass ← match ← accept .less with
      | some _ => (fun t ↦ some ⟨t, none⟩) <$> expect input .identifier "superclass name"
      | none => pure none
    let _ ← expect input .leftBrace "'\x7b' before class body"
    let methods ← many (fun k ↦ decide (k = .rightBrace)) (function "method" nesting) input.size []
    let _ ← expect input .rightBrace "'\x7d' after class body"
    return .class name superclass methods

/-- The rest of a function declaration, or a method. -/
def function (what : String) : Nat → Parse FunDecl
  | 0 => tooDeep
  | nesting + 1 => do
    let (name, parameters) ← functionHead input what
    let body ← insideFunction (statement nesting)
    return .mk name parameters body

def statement : Nat → Parse Stmt
  | 0 => tooDeep
  | nesting + 1 => do
    let t ← peek input
    match t.kind with
    | .for => advance; forStatement nesting
    | .while =>
      advance
      let _ ← expect input .leftParen "'(' after 'while'"
      let condition ← expression input nesting
      let _ ← expect input .rightParen "')' after condition"
      return .loop condition (← statement nesting)
    | .if =>
      advance
      let _ ← expect input .leftParen "'(' after 'if'"
      let condition ← expression input nesting
      let _ ← expect input .rightParen "')' after if condition"
      let yes ← statement nesting
      match ← accept .else with
      | some _ => return .branch condition yes (some (← statement nesting))
      | none => return .branch condition yes none
    | .print =>
      advance
      let value ← expression input nesting
      let _ ← expect input .semicolon "';' after value"
      return .print value
    | .return => advance; returnStatement input t nesting
    | .leftBrace => advance; .block <$> block nesting
    | _ => expressionStatement input nesting

/-- The rest of a for statement. -/
def forStatement : Nat → Parse Stmt
  | 0 => tooDeep
  | nesting + 1 => do
    let _ ← expect input .leftParen "'(' after 'for'"
    let initializer ← match (← peek input).kind with
      | .semicolon => advance; pure none
      | .var => advance; some <$> varDeclaration input nesting
      | _ => some <$> expressionStatement input nesting
    let condition ← expressionUnless input .semicolon nesting
    let _ ← expect input .semicolon "';' after loop condition"
    let increment ← expressionUnless input .rightParen nesting
    let _ ← expect input .rightParen "')' after for clauses"
    return .forLoop initializer condition increment (← statement nesting)

/-- The rest of a block. -/
def block : Nat → Parse (List Stmt)
  | 0 => tooDeep
  | nesting + 1 => do
    let body ← many (fun k ↦ decide (k = .rightBrace)) (declaration nesting) input.size []
    let _ ← expect input .rightBrace "'\x7d' after block"
    return body.filterMap id

end

/-- A whole program. -/
def program (nesting : Nat) : Parse (List Stmt) := do
  let body ← many (fun _ ↦ false) (declaration input nesting) input.size []
  return body.filterMap id

/-- An expression up to the end of the input. -/
def wholeExpression (nesting : Nat) : Parse Expr := do
  let e ← expression input nesting
  if ← check fun _ ↦ true then fail input (.expected "end of expression")
  return e

end Parser

/-- The outcome of parsing: what was parsed, or why parsing stopped, and the complaints in the order
in which they were made. -/
structure Parsed (α : Type) where
  result : Except Parser.Abort α
  errors : List (Token × SyntaxError)

namespace Parser

/-- Runs a parser on all tokens of a program. -/
def run {α : Type} (p : Input → Parse α) (tokens : List Token) (finish : Token) : Parsed α :=
  match p ⟨finish, tokens.length + 1⟩ ⟨tokens, 0, []⟩ with
  | .ok a s => ⟨.ok a, s.errors.reverse⟩
  | .error abort s => ⟨.error abort, s.errors.reverse⟩

end Parser

/-- Parses the tokens of a program with a bound on nesting. -/
def parseProgram (nesting : Nat) (tokens : List Token) (finish : Token) : Parsed (List Stmt) :=
  Parser.run (fun input ↦ Parser.program input nesting) tokens finish

/-- Parses the tokens of a single expression with a bound on nesting. -/
def parseExpression (nesting : Nat) (tokens : List Token) (finish : Token) : Parsed Expr :=
  Parser.run (fun input ↦ Parser.wholeExpression input nesting) tokens finish

end Lox
