import Lox.Text.Digit
import Lox.Text.Quoted

/-!
# Requests on the command line

The command line holds words. Some are flags and at most one is the path of a script; everything
behind a lone double dash is not a flag. A flag may be cut short as long as what is left of it
belongs to one flag only. No flag takes a value.

All words are told apart before any of them takes effect. After that they take effect one by one,
and the first that asks for help or is misused settles the matter. Words that nobody wants are only
complained about in the end.
-/

namespace Lox

/-- What the program is asked to do. -/
inductive Request where
  | help
  /-- The words make no sense. -/
  | refuse (reason : String)
  | prompt
  | script (path : String) (check : Bool)
  deriving DecidableEq, Repr

namespace Request

inductive Flag where
  | help
  | check
  | verbose
  deriving DecidableEq, Repr

/-- The spellings of the flags. -/
def spellings : List (String × Flag) :=
  [("-h", .help), ("--help", .help), ("--check", .check), ("--verbose", .verbose)]

/-- How a flag is called in a complaint. -/
def Flag.title : Flag → String
  | help => "-h/--help"
  | check => "--check"
  | verbose => "--verbose"

/-- What a word is. -/
inductive Word where
  | plain (text : String)
  | dashes
  | flag (flag : Flag)
  /-- A flag is given a value. -/
  | misused (flag : Flag) (value : String)
  | unknown (text : String)
  /-- A flag is cut too short. -/
  | ambiguous (text : String) (spellings : List String)
  deriving DecidableEq, Repr

/-- Splits a word at the first equals sign. -/
def splitValue (cs : List Char) : String × Option String :=
  let name := String.ofList (cs.takeWhile (· ≠ '='))
  match cs.dropWhile (· ≠ '=') with
  | [] => (name, none)
  | _ :: value => (name, some (String.ofList value))

/-- The flag for help behind a single dash, and whatever follows its letter. More of that letter
change nothing, and anything else is taken as a value. -/
def helpAnd : List Char → Word
  | [] => .flag .help
  | 'h' :: rest => helpAnd rest
  | rest => .misused .help (String.ofList rest)

/-- A flag as it is spelled, perhaps with a value. Behind a single dash, a value stands for more
letters of flags unless it is empty. -/
def withValue (spelling : String) (flag : Flag) : Option String → Word
  | none => .flag flag
  | some value =>
    if spelling = "-h" ∧ value ≠ "" then helpAnd value.toList else .misused flag value

/-- Whether a word that starts with a dash is a negative number, and so no flag. A line feed at its
end does not count. -/
def isNegativeNumber (cs : List Char) : Bool :=
  let cs := if cs.getLast? = some '\n' then cs.dropLast else cs
  match cs.dropWhile Text.isDecimalDigit with
  | [] => !cs.isEmpty
  | '.' :: fraction => !fraction.isEmpty && fraction.all Text.isDecimalDigit
  | _ => false

/-- A word that starts with a dash and is not the spelling of a flag as it stands. -/
def shortened (text : String) (cs : List Char) : Word :=
  match cs with
  | '-' :: _ =>
    let (name, value) := splitValue ('-' :: cs)
    match spellings.filter fun s ↦ s.1.startsWith name with
    | [] => if ' ' ∈ cs then .plain text else .unknown text
    | [s] => withValue s.1 s.2 value
    | many => .ambiguous text (many.map Prod.fst)
  | 'h' :: rest => helpAnd rest
  | _ => if isNegativeNumber cs ∨ ' ' ∈ cs then .plain text else .unknown text

/-- Tells what a word is. -/
def Word.ofString (text : String) : Word :=
  match text.toList with
  | '-' :: c :: cs =>
    if text = "--" then .dashes
    else
      let (name, value) := splitValue text.toList
      match spellings.find? fun s ↦ s.1 = name with
      | some s => withValue s.1 s.2 value
      | none => shortened text (c :: cs)
  | _ => .plain text

/-- Tells what the words of a command line are. -/
def Word.ofStrings : List String → List Word
  | [] => []
  | text :: texts =>
    match Word.ofString text with
    | .dashes => .dashes :: texts.map .plain
    | word => word :: Word.ofStrings texts

/-- What the words so far have led to. -/
structure Reading where
  check : Bool
  verbose : Bool
  /-- The place of the path is taken, even if by no path. -/
  closed : Bool
  script : Option String
  /-- The words that nobody wants. -/
  extra : List String

/-- What is asked for when all words have been read. -/
def Reading.request (r : Reading) : Request :=
  match r.extra, r.script with
  | [], some path => .script path r.check
  | [], none => if r.check then .refuse "--check needs a script" else .prompt
  | extra, _ => .refuse ("unrecognized arguments: " ++ " ".intercalate extra)

/-- Reads words one by one. A double dash next to the path belongs to it; elsewhere nobody wants
it. -/
def read (r : Reading) : List Word → Request × Bool
  | [] => (r.request, r.verbose)
  | .plain text :: .dashes :: words =>
    if r.closed then read { r with extra := r.extra ++ [text, "--"] } words
    else read { r with closed := true, script := some text } words
  | .plain text :: words =>
    if r.closed then read { r with extra := r.extra ++ [text] } words
    else read { r with closed := true, script := some text } words
  | .dashes :: .plain text :: words =>
    if r.closed then read { r with extra := r.extra ++ ["--", text] } words
    else read { r with closed := true, script := some text } words
  | .dashes :: words =>
    if r.closed then read { r with extra := r.extra ++ ["--"] } words
    else read { r with closed := true } words
  | .flag .help :: _ => (.help, r.verbose)
  | .flag .check :: words => read { r with check := true } words
  | .flag .verbose :: words => read { r with verbose := true } words
  | .misused flag value :: _ =>
    (.refuse ("argument " ++ flag.title ++ ": ignored explicit argument " ++ Text.quoted value),
      r.verbose)
  | .unknown text :: words => read { r with extra := r.extra ++ [text] } words
  | .ambiguous _ _ :: words => read r words

/-- The complaint about the first word that is cut too short. -/
def ambiguity? (words : List Word) : Option Request :=
  words.findSome? fun
    | .ambiguous text matching =>
      some (.refuse
        ("ambiguous option: " ++ text ++ " could match " ++ ", ".intercalate matching))
    | _ => none

/-- What a command line asks for, and whether notes are wanted. -/
def ofArguments (arguments : List String) : Request × Bool :=
  let words := Word.ofStrings arguments
  match ambiguity? words with
  | some complaint => (complaint, false)
  | none => read ⟨false, false, false, none, []⟩ words

end Request

end Lox
