import Lox.Diagnostic
import Lox.Document
import Lox.Syntax

/-!
# Outlines of syntax trees

A syntax tree is shown as a document down to a bounded number of levels. Every node, every list and
every leaf is one level below what holds it, and whatever lies beyond the last level is replaced by
a mark. The bound is passed down as the number of levels that are left, so a tree that is shown with
no levels left is the mark itself, whatever it is.

A token is a leaf, although it is written as a record. Distances are not part of an outline.
-/

namespace Lox

/-- What stands for the parts that are too deep to be shown. -/
def Document.truncated : Document := .record [("_truncated", .bool true)]

def Literal.document : Literal → Document
  | nil => .null
  | bool b => .bool b
  | number x => .number x
  | string s => .text s

def Token.document (t : Token) : Document :=
  .record [("kind", .text t.kind.name), ("lexeme", .text t.lexeme), ("line", .count t.line)]

namespace Outline

/-- A leaf, if there is a level left for it. -/
def leaf : Nat → Document → Document
  | 0, _ => .truncated
  | _ + 1, d => d

/-- An absent part, which is a leaf, or a part that is shown by `f`. -/
def optional {α : Type} (levels : Nat) (f : α → Document) : Option α → Document
  | none => leaf levels .null
  | some a => f a

/-- A node with its fields. -/
def node (name : String) (fields : List (String × Document)) : Document :=
  .record (("_type", .text name) :: fields)

def token (levels : Nat) (t : Token) : Document := leaf levels t.document

def tokens : Nat → List Token → Document
  | 0, _ => .truncated
  | levels + 1, ts => .list (ts.map (token levels))

/-- A use of a variable. -/
def reference : Nat → Reference → Document
  | 0, _ => .truncated
  | levels + 1, r => node "VariableExpression" [("name", token levels r.name)]

end Outline

open Outline

/-- An expression, with the given number of levels left. -/
def Expr.outline : Nat → Expr → Document
  | 0, _ => .truncated
  | levels + 1, e => node e.nodeName <| match e with
    | literal value => [("value", leaf levels value.document)]
    | group inner => [("expression", outline levels inner)]
    | unary operator operand =>
      [("operator", token levels operator), ("operand", outline levels operand)]
    | binary left operator right | logical left operator right =>
      [("left", outline levels left), ("operator", token levels operator),
        ("right", outline levels right)]
    | var target => [("name", token levels target.name)]
    | property object name => [("object", outline levels object), ("name", token levels name)]
    | assign target value =>
      [("name", token levels target.name), ("target", reference levels target),
        ("value", outline levels value)]
    | setProperty object name value =>
      [("name", token levels name),
        ("target", match levels with
          | 0 => .truncated
          | inner + 1 => node "PropertyExpression"
            [("object", outline inner object), ("name", token inner name)]),
        ("value", outline levels value)]
    | call callee paren arguments =>
      [("callee", outline levels callee), ("paren", token levels paren),
        ("arguments", match levels with
          | 0 => .truncated
          | inner + 1 => .list (arguments.map (outline inner)))]
    | self keyword => [("keyword", token levels keyword.name)]
    | inherited keyword method =>
      [("keyword", token levels keyword.name), ("method", token levels method)]

/-- A statement, with the given number of levels left. -/
def Stmt.outline : Nat → Stmt → Document
  | 0, _ => .truncated
  | levels + 1, s => node s.nodeName <| match s with
    | expression value | print value => [("expression", value.outline levels)]
    | var name initializer =>
      [("name", token levels name),
        ("initializer", optional levels (Expr.outline levels) initializer)]
    | block body =>
      [("statements", match levels with
        | 0 => .truncated
        | inner + 1 => .list (body.map (outline inner)))]
    | branch condition yes no =>
      [("condition", condition.outline levels), ("then_branch", outline levels yes),
        ("else_branch", optional levels (outline levels) no)]
    | loop condition body =>
      [("condition", condition.outline levels), ("body", outline levels body)]
    | forLoop initializer condition increment body =>
      [("initializer", optional levels (outline levels) initializer),
        ("condition", optional levels (Expr.outline levels) condition),
        ("increment", optional levels (Expr.outline levels) increment),
        ("body", outline levels body)]
    | function declaration =>
      [("name", token levels declaration.name),
        ("parameters", tokens levels declaration.parameters),
        ("body", outline levels declaration.body)]
    | «return» keyword value =>
      [("keyword", token levels keyword),
        ("value", optional levels (Expr.outline levels) value)]
    | «class» name superclass methods =>
      [("name", token levels name),
        ("superclass", optional levels (reference levels) superclass),
        ("methods", match levels with
          | 0 => .truncated
          | inner + 1 => .list (methods.map fun m ↦ outline inner (.function m)))]

/-- A row of statements, with the given number of levels left. -/
def Stmt.outlines : Nat → List Stmt → Document
  | 0, _ => .truncated
  | levels + 1, body => .list (body.map (Stmt.outline levels))

/-- A diagnostic as a document, with a name as if it were a node. -/
def Diagnostic.outline (d : Diagnostic) : Document :=
  node "Diagnostic" [("stage", .text d.stage.name), ("line", .count d.line),
    ("message", .text d.message), ("where", .text d.place)]

/-- The number of levels that are left at the root when depths up to `depth` are shown. -/
def Outline.levels (depth : Int) : Nat := (depth + 1).toNat

/-- The greatest depth that is shown unless another is asked for. -/
def Outline.defaultDepth : Int := 64

end Lox
