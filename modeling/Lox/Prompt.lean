import Lox.Message
import Lox.Text.Blank

/-!
# The prompt

A conversation in which each line is a source text of its own, run in one session. A line that can
be read as an expression is evaluated, and its value is shown; any other line is run as a program.
Two words end the conversation, and so does the end of the input, which counts as one of them.
-/

namespace Lox.Prompt

/-- What is said in the beginning. -/
def greeting : List Message :=
  [.line "minilox :: tree-walking interpreter",
    .line "Type 'exit' or press Ctrl-D to leave."]

/-- What a line leads to. -/
structure Reaction where
  messages : List Message
  /-- Whether the conversation is over. -/
  ends : Bool
  /-- What ended the execution of the line if that was not its own fault. -/
  escaped : Option Interrupt

/-- The line that stands for the end of the input. -/
def endOfInput : String := "EOF"

/-- Reacts to a line. -/
def react (s : Session) (line : String) : Reaction × Session :=
  let word := Text.trim line
  if word = "exit" then (⟨[], true, none⟩, s)
  else if word = endOfInput then (⟨[.line ""], true, none⟩, s)
  else if word = "" then (⟨[], false, none⟩, s)
  else if isExpression s.host.nesting line then
    let (e, s) := s.evaluate line
    (⟨e.messages, false, e.escaped?⟩, s)
  else
    let (r, s) := s.run line
    (⟨r.messages, false, r.escaped?⟩, s)

/-- A conversation about some lines and the end of the input behind them. -/
def converse (s : Session) : List String → List Message × Option Interrupt
  | [] => (.invitation :: (react s endOfInput).1.messages, none)
  | line :: lines =>
    let (r, s) := react s line
    let (rest, escaped) :=
      if r.ends ∨ r.escaped.isSome then ([], r.escaped) else converse s lines
    (.invitation :: r.messages ++ rest, escaped)

end Lox.Prompt
