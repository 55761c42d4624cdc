/-!
# Line ends

A script file may end its lines with a line feed, a carriage return, or both. Everything after
reading sees line feeds only.
-/

namespace Lox.Text

/-- Replaces each carriage return, together with a line feed right after it, by a line feed. -/
def unifyLineEnds (cs : List Char) : List Char := go cs []
where
  /-- Continues on `cs`, with what was read so far in reverse. -/
  go : List Char → List Char → List Char
    | [], read => read.reverse
    | '\r' :: '\n' :: cs, read => go cs ('\n' :: read)
    | '\r' :: cs, read => go cs ('\n' :: read)
    | c :: cs, read => go cs (c :: read)

/-- Reads a file as strict UTF-8, with unified line ends. A byte order mark is an ordinary
character. -/
def decode? (bytes : ByteArray) : Option String :=
  (String.fromUTF8? bytes).map fun text ↦ String.ofList (unifyLineEnds text.toList)

/-- The lines of typed input. What follows the last line feed is a line only if it is not empty. -/
def lines (text : String) : List String :=
  match (text.splitOn "\n").reverse with
  | "" :: front => front.reverse
  | all => all.reverse

end Lox.Text
