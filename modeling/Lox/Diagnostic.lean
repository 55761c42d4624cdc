import Lox.Token.Lexer

/-!
# Diagnostics

What is wrong with a program before it runs. The stages find faults of their own kinds and know
nothing of each other; a diagnostic is a fault put into words, with the stage that found it.
-/

namespace Lox

/-- The stages of working on a program. -/
inductive Stage where
  | lexical | syntactic | resolution | runtime
  deriving DecidableEq, Repr

namespace Stage

def all : List Stage := [.lexical, .syntactic, .resolution, .runtime]

/-- The name under which a stage is shown. -/
def name : Stage → String
  | lexical => "LEXICAL"
  | syntactic => "SYNTAX"
  | resolution => "RESOLUTION"
  | runtime => "RUNTIME"

def ofName? (name : String) : Option Stage := all.find? fun s ↦ s.name = name

/-- The name of a stage in running text. -/
def word (s : Stage) : String := s.name.map Char.toLower

end Stage

/-- A fault of a program, in words. -/
structure Diagnostic where
  stage : Stage
  line : Int
  message : String
  /-- Which token is at fault, written so that it can follow the word `Error`; it may be empty. -/
  place : String
  deriving DecidableEq, Repr

/-- How a diagnostic says that a token is at fault. -/
def Token.place (t : Token) : String :=
  if t.kind = .eof then " at end" else " at '" ++ t.lexeme ++ "'"

namespace Diagnostic

/-- A diagnostic about a line as a whole. -/
def atLine (stage : Stage) (line : Int) (message : String) : Diagnostic :=
  ⟨stage, line, message, ""⟩

/-- A diagnostic about a token. -/
def atToken (stage : Stage) (token : Token) (message : String) : Diagnostic :=
  ⟨stage, token.line, message, token.place⟩

/-- A diagnostic as it is shown to a user. -/
def text (d : Diagnostic) : String :=
  "[line " ++ toString d.line ++ "] Error" ++ d.place ++ ": " ++ d.message

end Diagnostic

/-- Diagnostics in the order in which they were reported, and the stage that is reporting. -/
structure Diagnostics where
  stage : Stage
  items : Array Diagnostic
  deriving Repr

namespace Diagnostics

/-- Nothing is reported, and lexing is about to begin. -/
def empty : Diagnostics := ⟨.lexical, #[]⟩

def hasErrors (ds : Diagnostics) : Bool := !ds.items.isEmpty

def count (ds : Diagnostics) (stage : Stage) : Nat := ds.items.countP fun d ↦ d.stage = stage

def enter (ds : Diagnostics) (stage : Stage) : Diagnostics := { ds with stage }

def reportLine (ds : Diagnostics) (line : Int) (message : String) : Diagnostics :=
  { ds with items := ds.items.push (.atLine ds.stage line message) }

def reportToken (ds : Diagnostics) (token : Token) (message : String) : Diagnostics :=
  { ds with items := ds.items.push (.atToken ds.stage token message) }

/-- Reports errors about tokens, in order. -/
def reportTokens {ε : Type} (message : ε → String) (ds : Diagnostics) (errors : List (Token × ε)) :
    Diagnostics :=
  errors.foldl (fun ds e ↦ ds.reportToken e.1 (message e.2)) ds

/-- Reports errors about lines, in order. -/
def reportLines {ε : Type} (message : ε → String) (ds : Diagnostics) (errors : List (Int × ε)) :
    Diagnostics :=
  errors.foldl (fun ds e ↦ ds.reportLine e.1 (message e.2)) ds

def extend (ds : Diagnostics) (more : List Diagnostic) : Diagnostics :=
  { ds with items := ds.items ++ more }

/-- Forgets what was reported. The stage stays the same. -/
def clear (ds : Diagnostics) : Diagnostics := { ds with items := #[] }

@[simp] theorem toList_reportLine (ds : Diagnostics) (line : Int) (message : String) :
    (ds.reportLine line message).items.toList
      = ds.items.toList ++ [.atLine ds.stage line message] := by
  simp [reportLine]

@[simp] theorem toList_reportToken (ds : Diagnostics) (token : Token) (message : String) :
    (ds.reportToken token message).items.toList
      = ds.items.toList ++ [.atToken ds.stage token message] := by
  simp [reportToken]

@[simp] theorem toList_extend (ds : Diagnostics) (more : List Diagnostic) :
    (ds.extend more).items.toList = ds.items.toList ++ more := by
  simp [extend]

end Diagnostics

end Lox
