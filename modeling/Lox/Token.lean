import Lox.Number.Text

/-!
# Tokens

A token is a lexeme with its kind, its line and, for a number or a string, the value it denotes.
The names of the kinds are part of what the program shows, so they are spelled out here rather than
derived.
-/

namespace Lox

/-- The kinds of token. -/
inductive Kind where
  | leftParen | rightParen | leftBrace | rightBrace | comma | dot | minus | plus | semicolon
  | slash | star
  | bang | bangEqual | equal | equalEqual | greater | greaterEqual | less | lessEqual
  | identifier | string | number
  | and | «class» | «else» | false | «fun» | «for» | «if» | nil | or | print | «return» | super
  | this | true | var | «while»
  | eof
  deriving DecidableEq, Repr

namespace Kind

/-- Every kind, punctuation first and the end of the input last. -/
def all : List Kind :=
  [.leftParen, .rightParen, .leftBrace, .rightBrace, .comma, .dot, .minus, .plus, .semicolon,
    .slash, .star, .bang, .bangEqual, .equal, .equalEqual, .greater, .greaterEqual, .less,
    .lessEqual, .identifier, .string, .number, .and, .class, .else, .false, .fun, .for, .if, .nil,
    .or, .print, .return, .super, .this, .true, .var, .while, .eof]

/-- The name under which a kind is shown. -/
def name : Kind → String
  | leftParen => "LPAREN"
  | rightParen => "RPAREN"
  | leftBrace => "LBRACE"
  | rightBrace => "RBRACE"
  | comma => "COMMA"
  | dot => "DOT"
  | minus => "MINUS"
  | plus => "PLUS"
  | semicolon => "SEMI"
  | slash => "SLASH"
  | star => "STAR"
  | bang => "BANG"
  | bangEqual => "NEQ"
  | equal => "ASSIGN"
  | equalEqual => "EQ"
  | greater => "GT"
  | greaterEqual => "GTE"
  | less => "LT"
  | lessEqual => "LTE"
  | identifier => "IDENT"
  | string => "STRING"
  | number => "NUMBER"
  | and => "AND"
  | «class» => "CLASS"
  | «else» => "ELSE"
  | false => "FALSE"
  | «fun» => "FUN"
  | «for» => "FOR"
  | «if» => "IF"
  | nil => "NIL"
  | or => "OR"
  | print => "PRINT"
  | «return» => "RETURN"
  | super => "SUPER"
  | this => "THIS"
  | true => "TRUE"
  | var => "VAR"
  | «while» => "WHILE"
  | eof => "EOF"

def ofName? (name : String) : Option Kind := all.find? fun k ↦ k.name = name

/-- The reserved words. -/
def ofWord? : String → Option Kind
  | "and" => some .and
  | "class" => some .class
  | "else" => some .else
  | "false" => some .false
  | "for" => some .for
  | "fun" => some .fun
  | "if" => some .if
  | "nil" => some .nil
  | "or" => some .or
  | "print" => some .print
  | "return" => some .return
  | "super" => some .super
  | "this" => some .this
  | "true" => some .true
  | "var" => some .var
  | "while" => some .while
  | _ => none

/-- The symbols of one character. -/
def ofSymbol? : Char → Option Kind
  | '(' => some .leftParen
  | ')' => some .rightParen
  | '{' => some .leftBrace
  | '}' => some .rightBrace
  | ',' => some .comma
  | '.' => some .dot
  | '-' => some .minus
  | '+' => some .plus
  | ';' => some .semicolon
  | '*' => some .star
  | '/' => some .slash
  | '!' => some .bang
  | '=' => some .equal
  | '>' => some .greater
  | '<' => some .less
  | _ => none

/-- The symbols of two characters, all of which end in an equals sign. -/
def ofSymbolPair? : Char → Char → Option Kind
  | '!', '=' => some .bangEqual
  | '=', '=' => some .equalEqual
  | '>', '=' => some .greaterEqual
  | '<', '=' => some .lessEqual
  | _, _ => none

/-- Whether a token of this kind begins a declaration or a statement by itself. -/
def startsStatement : Kind → Bool
  | «class» | «fun» | var | «for» | «if» | «while» | print | «return» => Bool.true
  | _ => Bool.false

end Kind

/-- A constant of the language, as it stands in a program. -/
inductive Literal where
  | nil
  | bool (value : Bool)
  | number (value : Float)
  | string (value : String)
  deriving DecidableEq, Repr

/-- A token. Only numbers and strings carry a value; for all other kinds it is `nil`. -/
structure Token where
  kind : Kind
  lexeme : String
  value : Literal
  line : Int
  deriving DecidableEq, Repr

/-- The value of a token in a listing of tokens. -/
def Literal.listing : Literal → String
  | nil => "None"
  | bool true => "True"
  | bool false => "False"
  | number x => Number.exact.write x
  | string s => s

/-- One line of a listing of tokens. -/
def Token.listing (t : Token) : String :=
  t.kind.name ++ " " ++ t.lexeme ++ " " ++ t.value.listing

end Lox
