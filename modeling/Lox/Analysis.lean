import Lox.Diagnostic
import Lox.Syntax.Parser
import Lox.Syntax.Scoping

/-!
# Analysis of source text

Everything that happens to a source text before it can run: lexing, parsing, and resolving names.
Lexical errors do not keep a text from being parsed, but a text with errors of either kind is not
resolved, unless somebody asks for it. What is nested too deeply for a stage is one more complaint,
about the line on which the text begins, and it is always the last.
-/

namespace Lox

/-- What is known about a source text. -/
structure Analysis (α : Type) where
  /-- The outcome of lexing. -/
  scan : Scan
  /-- What the text says, if it could be parsed. -/
  result : Option α
  diagnostics : Diagnostics
  /-- The uses of names that have been resolved, in order. -/
  findings : List Scoping.Finding
  /-- Whether the last stage found the text to be nested too deeply. -/
  tooDeep : Bool

namespace Analysis

variable {α : Type}

def hasErrors (a : Analysis α) : Bool := a.diagnostics.hasErrors

/-- The number of tokens, the one at the end included. -/
def tokenCount (a : Analysis α) : Nat := a.scan.tokens.length + 1

/-- Complains that the text is nested too deeply for the current stage. -/
def reportNesting (a : Analysis α) : Analysis α :=
  { a with
    diagnostics := a.diagnostics.reportLine a.scan.firstToken.line "Too much nesting."
    tooDeep := true }

/-- Lexes and parses a source text. -/
def parse (parser : List Token → Token → Parsed α) (source : String) : Analysis α :=
  let s := Lox.scan source
  let parsed := parser s.tokens s.finish
  let lexical := Diagnostics.empty.reportLines LexicalError.message s.errors
  let diagnostics := (lexical.enter .syntactic).reportTokens SyntaxError.message parsed.errors
  match parsed.result with
  | .ok a => ⟨s, some a, diagnostics, [], false⟩
  | .error .fault => ⟨s, none, diagnostics, [], false⟩
  | .error _ => reportNesting ⟨s, none, diagnostics, [], false⟩

/-- Resolves the names in a text that could be parsed. Where the text is nested too deeply, it stays
as it is. -/
def resolve (resolver : α → Resolved α) (a : Analysis α) : Analysis α :=
  match a.result with
  | none => a
  | some parsed =>
    let resolved := resolver parsed
    let diagnostics :=
      (a.diagnostics.enter .resolution).reportTokens ScopeError.message resolved.errors
    let a := { a with diagnostics, findings := resolved.findings }
    match resolved.result with
    | some result => { a with result := some result }
    | none => a.reportNesting

/-- Resolves the names in a text without errors. -/
def resolveClean (resolver : α → Resolved α) (a : Analysis α) : Analysis α :=
  if a.hasErrors then a else a.resolve resolver

/-- The statements of a program. There are none if it could not be parsed. -/
def program (a : Analysis (List Stmt)) : List Stmt := a.result.getD []

end Analysis

/-- Analyzes a program. -/
def compile (nesting : Nat) (source : String) : Analysis (List Stmt) :=
  (Analysis.parse (parseProgram nesting) source).resolveClean (resolveProgram nesting)

/-- Analyzes a text that is a single expression. -/
def compileExpression (nesting : Nat) (source : String) : Analysis Expr :=
  (Analysis.parse (parseExpression nesting) source).resolveClean (resolveExpression nesting)

/-- Whether a text can be parsed as a single expression without any complaint. -/
def isExpression (nesting : Nat) (source : String) : Bool :=
  let a := Analysis.parse (parseExpression nesting) source
  a.result.isSome && !a.hasErrors

end Lox
