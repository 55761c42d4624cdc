import Lox.Token

/-!
# From source text to tokens

Lexing happens in two steps. First the text is cut into pieces, each of which is a lexeme or a gap;
nothing is lost, so the pieces joined together are the text again. Then a walk over the pieces
counts lines and keeps the tokens and the complaints.

## Cutting

The first character decides what a piece is, and every piece takes as many characters as it can:
a symbol of two characters is preferred to one of one, and a number takes a point only with a digit
behind it. A comment runs up to the end of its line. A string may run over several lines; one that
is never closed takes the rest of the text, and it is a gap. So is a character that no token starts
with.

## Lines

A piece is on the line on which it ends. That matters for strings only, as no other lexeme holds a
line feed.
-/

namespace Lox

/-- What is wrong with a stretch of source text. -/
inductive LexicalError where
  | unexpectedCharacter
  | unterminatedString
  deriving DecidableEq, Repr

def LexicalError.message : LexicalError → String
  | unexpectedCharacter => "Unexpected character."
  | unterminatedString => "Unterminated string."

/-- What a piece of source text is. -/
inductive Piece.Role where
  /-- White space, or a comment. -/
  | blank
  /-- Text that is no part of any token and is complained about. -/
  | fault (error : LexicalError)
  | lexeme (kind : Kind) (value : Literal)
  deriving DecidableEq, Repr

/-- A stretch of source text and what it is. -/
structure Piece where
  role : Piece.Role
  text : List Char
  deriving DecidableEq, Repr

namespace Piece

/-- The characters between tokens that mean nothing. -/
def isSpace (c : Char) : Bool := c = ' ' || c = '\t' || c = '\r' || c = '\n'

def startsWord (c : Char) : Bool := c.isAlpha || c = '_'

def continuesWord (c : Char) : Bool := startsWord c || c.isDigit

/-- The comment that starts with the two slashes in front of `cs`. -/
def comment (cs : List Char) : Piece × List Char :=
  (⟨.blank, '/' :: cs.takeWhile (· ≠ '\n')⟩, cs.dropWhile (· ≠ '\n'))

/-- The string that is opened in front of `cs`. -/
def string (cs : List Char) : Piece × List Char :=
  let body := cs.takeWhile (· ≠ '"')
  match cs.dropWhile (· ≠ '"') with
  | [] => (⟨.fault .unterminatedString, '"' :: body⟩, [])
  | close :: rest =>
    (⟨.lexeme .string (.string (String.ofList body)), '"' :: body ++ [close]⟩, rest)

/-- The number that starts with `c`. -/
def number (c : Char) (cs : List Char) : Piece × List Char :=
  let whole := c :: cs.takeWhile Char.isDigit
  let ending (fraction rest : List Char) : Piece × List Char :=
    (⟨.lexeme .number (.number (Number.ofLiteral whole fraction)),
      whole ++ (if fraction.isEmpty then [] else '.' :: fraction)⟩, rest)
  match cs.dropWhile Char.isDigit with
  | '.' :: d :: rest =>
    if d.isDigit then
      ending (d :: rest.takeWhile Char.isDigit) (rest.dropWhile Char.isDigit)
    else ending [] ('.' :: d :: rest)
  | rest => ending [] rest

/-- The name or reserved word that starts with `c`. -/
def word (c : Char) (cs : List Char) : Piece × List Char :=
  let text := c :: cs.takeWhile continuesWord
  (⟨.lexeme ((Kind.ofWord? (String.ofList text)).getD .identifier) .nil, text⟩,
    cs.dropWhile continuesWord)

/-- The symbol `c`, if it is one. -/
def single (c : Char) (cs : List Char) : Piece × List Char :=
  match Kind.ofSymbol? c with
  | some kind => (⟨.lexeme kind .nil, [c]⟩, cs)
  | none => (⟨.fault .unexpectedCharacter, [c]⟩, cs)

/-- The symbol that starts with `c`, the longer one if there are two. -/
def symbol (c : Char) : List Char → Piece × List Char
  | [] => single c []
  | d :: cs =>
    match Kind.ofSymbolPair? c d with
    | some kind => (⟨.lexeme kind .nil, [c, d]⟩, cs)
    | none => single c (d :: cs)

/-- The first piece of the text `c :: cs`, and what follows it. -/
def first (c : Char) (cs : List Char) : Piece × List Char :=
  if isSpace c then (⟨.blank, [c]⟩, cs)
  else if c = '/' ∧ cs.head? = some '/' then comment cs
  else if c = '"' then string cs
  else if c.isDigit then number c cs
  else if startsWord c then word c cs
  else symbol c cs

theorem length_dropWhile_le {α : Type} (p : α → Bool) (xs : List α) :
    (xs.dropWhile p).length ≤ xs.length :=
  (List.dropWhile_suffix p).length_le

theorem length_snd_first_le (c : Char) (cs : List Char) : (first c cs).2.length ≤ cs.length := by
  have digits := length_dropWhile_le Char.isDigit cs
  have body := length_dropWhile_le (fun c ↦ decide (c ≠ '"')) cs
  unfold first
  split
  · exact Nat.le_refl _
  split
  · exact length_dropWhile_le _ _
  split
  · simp only [string]
    split
    · exact Nat.zero_le _
    · rename_i h
      rw [h, List.length_cons] at body
      exact Nat.le_of_succ_le body
  split
  · simp only [number]
    split
    · rename_i d rest h
      rw [h] at digits
      have := length_dropWhile_le Char.isDigit rest
      simp only [List.length_cons] at digits
      split
      · simp only; omega
      · simp only [List.length_cons]; omega
    · exact digits
  split
  · exact length_dropWhile_le _ _
  · cases cs with
    | nil => simp only [symbol, single]; split <;> simp
    | cons d cs =>
      simp only [symbol, single]
      split
      · simp
      · split <;> simp

/-- Continues on `cs`, with the pieces cut off so far in reverse. -/
def cutOnto (cs : List Char) (cut : List Piece) : List Piece :=
  match cs with
  | [] => cut.reverse
  | c :: cs => cutOnto (first c cs).2 ((first c cs).1 :: cut)
termination_by cs.length
decreasing_by simpa using Nat.lt_succ_of_le (length_snd_first_le _ _)

/-- The pieces of a source text, in order. -/
def cut (cs : List Char) : List Piece := cutOnto cs []

end Piece

/-- The outcome of lexing. The tokens do not include the one that marks the end of the input. -/
structure Scan where
  tokens : List Token
  /-- The token that marks the end of the input, on the last line. -/
  finish : Token
  /-- The complaints in source order, each with its line. -/
  errors : List (Int × LexicalError)

namespace Scan

/-- The walk over the pieces: the current line, and what was found so far, the latest first. -/
structure Walk where
  line : Int
  tokens : List Token
  errors : List (Int × LexicalError)

/-- Takes one piece into account. -/
def Walk.step (w : Walk) (p : Piece) : Walk :=
  let line := w.line + p.text.count '\n'
  match p.role with
  | .blank => { w with line }
  | .fault error => { w with line, errors := (line, error) :: w.errors }
  | .lexeme kind value =>
    { w with line, tokens := ⟨kind, String.ofList p.text, value, line⟩ :: w.tokens }

/-- The tokens and complaints of a row of pieces. -/
def ofPieces (pieces : List Piece) : Scan :=
  let w := pieces.foldl Walk.step ⟨1, [], []⟩
  ⟨w.tokens.reverse, ⟨.eof, "", .nil, w.line⟩, w.errors.reverse⟩

/-- All tokens, the one at the end included. -/
def allTokens (s : Scan) : List Token := s.tokens ++ [s.finish]

/-- The first token, which may be the one at the end. -/
def firstToken (s : Scan) : Token := s.tokens.headD s.finish

end Scan

/-- Lexes a source text. -/
def scan (source : String) : Scan := Scan.ofPieces (Piece.cut source.toList)

end Lox
