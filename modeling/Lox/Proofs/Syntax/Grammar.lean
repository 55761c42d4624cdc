import Lox.Syntax.Parser
import Mathlib.Data.List.Forall2

/-!
# The grammar

Which trees are programs, and how a program is spelled.

## Well-formed trees

Expressions come in ten ranks, from assignments, which bind loosest, to primary expressions. An
operand has to bind at least as tightly as its place asks for; a group makes a primary expression of
anything. Rows of binary operators lean to the left, so the left operand may be of the rank of the
operator itself and the right one is tighter. Statements are restricted where a reader could not
tell two trees apart, or where the language says so: a body is no declaration, an `else` belongs to
the nearest `if`, a `return` is inside a function, and a row has no more than 255 items.

## Spelling

A tree does not hold all of its tokens. A spelling says of every token as much as the tree knows:
the token itself, or its kind, or only that it denotes some constant.
-/

namespace Lox

/-! ## Ranks -/

/-- The level of a binary operator. -/
def Kind.level? : Kind → Option Level
  | .or => some .or
  | .and => some .and
  | .equalEqual | .bangEqual => some .equality
  | .greater | .greaterEqual | .less | .lessEqual => some .comparison
  | .plus | .minus => some .sum
  | .star | .slash => some .product
  | _ => none

namespace Level

/-- Whether the operators of a level need not evaluate their right operand. -/
def isLogical : Level → Bool
  | or | and => true
  | _ => false

/-- Where a level stands among the ranks of expressions. -/
def rank : Level → Nat
  | or => 1
  | and => 2
  | equality => 3
  | comparison => 4
  | sum => 5
  | product => 6

theorem hasOperator_iff {level : Level} {kind : Kind} :
    level.hasOperator kind = true ↔ kind.level? = some level := by
  cases level <;> cases kind <;> decide

end Level

namespace Rank

/-- The rank of a prefix operator with its operand. -/
def unary : Nat := 7

/-- The rank of calls and of properties. -/
def call : Nat := 8

/-- The rank of what is complete by itself. -/
def primary : Nat := 9

end Rank

theorem Level.rank_lt_unary (level : Level) : level.rank < Rank.unary := by
  cases level <;> decide

/-- The operands of a level are of the next rank. -/
theorem Level.rank_tighter (level : Level) :
    level.tighter?.elim Rank.unary Level.rank = level.rank + 1 := by
  cases level <;> rfl

/-- How tightly an expression binds, from 0 for an assignment up to `Rank.primary`. -/
def Expr.rank : Expr → Nat
  | assign _ _ | setProperty _ _ _ => 0
  | binary _ operator _ | logical _ operator _ => operator.kind.level?.elim 0 Level.rank
  | unary _ _ => Rank.unary
  | call _ _ _ | property _ _ => Rank.call
  | literal _ | group _ | var _ | self _ | inherited _ _ => Rank.primary

/-! ## Well-formed expressions -/

/-- An expression that keeps to the ranks of its operands, and in which no name has a distance. -/
inductive Expr.WellFormed : Expr → Prop
  | literal {value : Literal} : WellFormed (.literal value)
  | group {inner : Expr} : inner.WellFormed → WellFormed (.group inner)
  | unary {operator : Token} {operand : Expr} :
      operator.kind = .bang ∨ operator.kind = .minus → operand.WellFormed →
      Rank.unary ≤ operand.rank → WellFormed (.unary operator operand)
  | binary {left : Expr} {operator : Token} {right : Expr} {level : Level} :
      operator.kind.level? = some level → level.isLogical = false →
      left.WellFormed → level.rank ≤ left.rank → right.WellFormed → level.rank < right.rank →
      WellFormed (.binary left operator right)
  | logical {left : Expr} {operator : Token} {right : Expr} {level : Level} :
      operator.kind.level? = some level → level.isLogical = true →
      left.WellFormed → level.rank ≤ left.rank → right.WellFormed → level.rank < right.rank →
      WellFormed (.logical left operator right)
  | var {name : Token} : name.kind = .identifier → WellFormed (.var ⟨name, none⟩)
  | property {object : Expr} {name : Token} :
      object.WellFormed → Rank.call ≤ object.rank → name.kind = .identifier →
      WellFormed (.property object name)
  | assign {name : Token} {value : Expr} :
      name.kind = .identifier → value.WellFormed → WellFormed (.assign ⟨name, none⟩ value)
  | setProperty {object : Expr} {name : Token} {value : Expr} :
      object.WellFormed → Rank.call ≤ object.rank → name.kind = .identifier → value.WellFormed →
      WellFormed (.setProperty object name value)
  | call {callee : Expr} {paren : Token} {arguments : List Expr} :
      callee.WellFormed → Rank.call ≤ callee.rank → paren.kind = .rightParen →
      arguments.length ≤ maxArguments → (∀ argument ∈ arguments, argument.WellFormed) →
      WellFormed (.call callee paren arguments)
  | self {keyword : Token} : keyword.kind = .this → WellFormed (.self ⟨keyword, none⟩)
  | inherited {keyword method : Token} :
      keyword.kind = .super → method.kind = .identifier →
      WellFormed (.inherited ⟨keyword, none⟩ method)

namespace Level

variable {level : Level} {left right : Expr} {operator : Token}

theorem rank_join (h : operator.kind.level? = some level) :
    (level.join left operator right).rank = level.rank := by
  cases level <;> simp only [join, Expr.rank, h, Option.elim_some]

/-- A row of operators of one level leans to the left. -/
theorem wellFormed_join (h : operator.kind.level? = some level) (hleft : left.WellFormed)
    (hleftRank : level.rank ≤ left.rank) (hright : right.WellFormed)
    (hrightRank : level.rank < right.rank) : (level.join left operator right).WellFormed := by
  cases level
  case or | and => exact .logical h rfl hleft hleftRank hright hrightRank
  all_goals exact .binary h rfl hleft hleftRank hright hrightRank

end Level

/-! ## Well-formed statements -/

namespace Stmt

/-- Whether a statement declares a name. -/
def isDeclaration : Stmt → Bool
  | var _ _ | function _ | «class» _ _ _ => true
  | _ => false

/-- Whether a statement may stand in front of the condition of a for statement. -/
def isInitializer : Stmt → Bool
  | var _ _ | expression _ => true
  | _ => false

/-- Whether an `else` right behind a statement would become a part of it. -/
def dangles : Stmt → Bool
  | branch _ _ none => true
  | branch _ _ (some no) => no.dangles
  | loop _ body => body.dangles
  | forLoop _ _ _ body => body.dangles
  | _ => false

end Stmt

/-- The name and the parameters of a function. -/
structure FunDecl.HeadWellFormed (f : FunDecl) : Prop where
  name : f.name.kind = .identifier
  parameters : ∀ parameter ∈ f.parameters, parameter.kind = .identifier
  room : f.parameters.length ≤ maxArguments

/-- A statement that the grammar admits, inside of a function or not. -/
inductive Stmt.WellFormed : Bool → Stmt → Prop
  | expression {inside : Bool} {value : Expr} : value.WellFormed →
    WellFormed inside (.expression value)
  | print {inside : Bool} {value : Expr} : value.WellFormed → WellFormed inside (.print value)
  | var {inside : Bool} {name : Token} {initializer : Option Expr} :
      name.kind = .identifier → (∀ e ∈ initializer, e.WellFormed) →
      WellFormed inside (.var name initializer)
  | block {inside : Bool} {body : List Stmt} :
      (∀ s ∈ body, s.WellFormed inside) → WellFormed inside (.block body)
  | branch {inside : Bool} {condition : Expr} {yes : Stmt} {no : Option Stmt} :
      condition.WellFormed → yes.WellFormed inside → yes.isDeclaration = false →
      (∀ s ∈ no, s.WellFormed inside) → (∀ s ∈ no, s.isDeclaration = false) →
      (no.isSome → yes.dangles = false) →
      WellFormed inside (.branch condition yes no)
  | loop {inside : Bool} {condition : Expr} {body : Stmt} :
      condition.WellFormed → body.WellFormed inside → body.isDeclaration = false →
      WellFormed inside (.loop condition body)
  | forLoop {inside : Bool} {initializer : Option Stmt} {condition increment : Option Expr}
      {body : Stmt} :
      (∀ s ∈ initializer, s.WellFormed inside) → (∀ s ∈ initializer, s.isInitializer) →
      (∀ e ∈ condition, e.WellFormed) → (∀ e ∈ increment, e.WellFormed) →
      body.WellFormed inside → body.isDeclaration = false →
      WellFormed inside (.forLoop initializer condition increment body)
  | function {inside : Bool} {f : FunDecl} :
      f.HeadWellFormed → f.body.WellFormed true → f.body.isDeclaration = false →
      WellFormed inside (.function f)
  | return {keyword : Token} {value : Option Expr} :
      keyword.kind = .return → (∀ e ∈ value, e.WellFormed) → WellFormed true (.return keyword value)
  | class {inside : Bool} {name : Token} {superclass : Option Reference} {methods : List FunDecl} :
      name.kind = .identifier →
      (∀ r ∈ superclass, r.name.kind = .identifier ∧ r.distance = none) →
      (∀ f ∈ methods, f.HeadWellFormed) → (∀ f ∈ methods, f.body.WellFormed true) →
      (∀ f ∈ methods, f.body.isDeclaration = false) →
      WellFormed inside (.class name superclass methods)

/-! ## Spelling -/

/-- What a tree knows about one of its tokens. -/
inductive Glyph where
  /-- The tree holds the token. -/
  | token (t : Token)
  /-- Only the kind is known. -/
  | mark (kind : Kind)
  /-- The token denotes a constant. -/
  | constant (value : Literal)

/-- Whether a token denotes a constant. -/
def Token.Denotes (t : Token) (value : Literal) : Prop :=
  match t.kind with
  | .number | .string => t.value = value
  | .true => value = .bool true
  | .false => value = .bool false
  | .nil => value = .nil
  | _ => False

/-- Whether a token is what a glyph says about it. -/
def Glyph.Fits : Glyph → Token → Prop
  | token t, u => t = u
  | mark kind, u => u.kind = kind
  | constant value, u => u.Denotes value

/-- Whether a row of tokens is what a row of glyphs says about it. -/
def Spells (glyphs : List Glyph) (tokens : List Token) : Prop :=
  List.Forall₂ Glyph.Fits glyphs tokens

@[simp] theorem spells_nil {tokens : List Token} : Spells [] tokens ↔ tokens = [] :=
  List.forall₂_nil_left_iff

theorem spells_cons {g : Glyph} {glyphs : List Glyph} {tokens : List Token} :
    Spells (g :: glyphs) tokens ↔ ∃ t rest, g.Fits t ∧ Spells glyphs rest ∧ tokens = t :: rest :=
  List.forall₂_cons_left_iff

theorem Spells.append {front back : List Glyph} {ts us : List Token} (h : Spells front ts)
    (h' : Spells back us) : Spells (front ++ back) (ts ++ us) := List.rel_append h h'

theorem spells_append {front back : List Glyph} {tokens : List Token} :
    Spells (front ++ back) tokens ↔
      ∃ ts us, Spells front ts ∧ Spells back us ∧ tokens = ts ++ us := by
  constructor
  · intro h
    induction front generalizing tokens with
    | nil => exact ⟨[], tokens, spells_nil.mpr rfl, h, rfl⟩
    | cons g front ih =>
      obtain ⟨t, rest, fits, hrest, rfl⟩ := spells_cons.mp h
      obtain ⟨ts, us, hfront, hback, rfl⟩ := ih hrest
      exact ⟨t :: ts, us, .cons fits hfront, hback, rfl⟩
  · rintro ⟨ts, us, hfront, hback, rfl⟩
    exact hfront.append hback

/-- A token that a tree holds stands in each of its spellings. -/
theorem Spells.mem {glyphs : List Glyph} {tokens : List Token} (h : Spells glyphs tokens)
    {t : Token} (ht : .token t ∈ glyphs) : t ∈ tokens := by
  induction h with
  | nil => cases ht
  | cons fits _ ih =>
    rcases List.mem_cons.mp ht with rfl | ht
    · rw [show t = _ from fits]
      exact List.mem_cons_self
    · exact List.mem_cons_of_mem _ (ih ht)

/-- Items with commas between them. -/
def Glyph.commaSeparated (items : List (List Glyph)) : List Glyph :=
  [Glyph.mark .comma].intercalate items

theorem Glyph.commaSeparated_cons (item : List Glyph) {items : List (List Glyph)} (h : items ≠ []) :
    Glyph.commaSeparated (item :: items) = item ++ .mark .comma :: Glyph.commaSeparated items := by
  obtain ⟨next, rest, rfl⟩ := List.exists_cons_of_ne_nil h
  simp [commaSeparated, List.intercalate]

mutual

/-- The tokens of an expression, in order. -/
def Expr.spelling : Expr → List Glyph
  | .literal value => [.constant value]
  | .group inner => .mark .leftParen :: inner.spelling ++ [.mark .rightParen]
  | .unary operator operand => .token operator :: operand.spelling
  | .binary left operator right => left.spelling ++ .token operator :: right.spelling
  | .logical left operator right => left.spelling ++ .token operator :: right.spelling
  | .var target => [.token target.name]
  | .property object name => object.spelling ++ [.mark .dot, .token name]
  | .assign target value => .token target.name :: .mark .equal :: value.spelling
  | .setProperty object name value =>
    object.spelling ++ .mark .dot :: .token name :: .mark .equal :: value.spelling
  | .call callee paren arguments =>
    callee.spelling ++ .mark .leftParen :: Glyph.commaSeparated (Expr.spellings arguments)
      ++ [.token paren]
  | .self keyword => [.token keyword.name]
  | .inherited keyword method => [.token keyword.name, .mark .dot, .token method]

def Expr.spellings : List Expr → List (List Glyph)
  | [] => []
  | e :: es => e.spelling :: Expr.spellings es

end

theorem Expr.spellings_eq_map (es : List Expr) : Expr.spellings es = es.map Expr.spelling := by
  induction es with
  | nil => rfl
  | cons e es ih => rw [Expr.spellings, ih, List.map_cons]

theorem Level.spelling_join (level : Level) (left right : Expr) (operator : Token) :
    (level.join left operator right).spelling
      = left.spelling ++ .token operator :: right.spelling := by
  cases level <;> rfl

/-- The tokens of a part that may be absent, behind what announces it. -/
def Expr.spellingAfter (announcement : List Glyph) (e : Option Expr) : List Glyph :=
  e.elim [] fun e ↦ announcement ++ e.spelling

mutual

/-- The tokens of a statement, in order. -/
def Stmt.spelling : Stmt → List Glyph
  | .expression value => value.spelling ++ [.mark .semicolon]
  | .print value => .mark .print :: value.spelling ++ [.mark .semicolon]
  | .var name initializer =>
    .mark .var :: .token name :: Expr.spellingAfter [.mark .equal] initializer
      ++ [.mark .semicolon]
  | .block body => .mark .leftBrace :: Stmt.spellings body ++ [.mark .rightBrace]
  | .branch condition yes no =>
    .mark .if :: .mark .leftParen :: condition.spelling ++ .mark .rightParen :: yes.spelling
      ++ Stmt.spellingAfter [.mark .else] [] no
  | .loop condition body =>
    .mark .while :: .mark .leftParen :: condition.spelling ++ .mark .rightParen :: body.spelling
  | .forLoop initializer condition increment body =>
    .mark .for :: .mark .leftParen :: Stmt.spellingAfter [] [.mark .semicolon] initializer
      ++ Expr.spellingAfter [] condition ++ .mark .semicolon :: Expr.spellingAfter [] increment
      ++ .mark .rightParen :: body.spelling
  | .function f => .mark .fun :: f.spelling
  | .return keyword value =>
    .token keyword :: Expr.spellingAfter [] value ++ [.mark .semicolon]
  | .class name superclass methods =>
    .mark .class :: .token name
      :: (superclass.elim [] fun r ↦ [.mark .less, .token r.name])
      ++ .mark .leftBrace :: FunDecl.spellings methods ++ [.mark .rightBrace]

/-- The tokens of a statement that may be absent, behind what announces it; without it there is
something else. -/
def Stmt.spellingAfter (announcement otherwise : List Glyph) : Option Stmt → List Glyph
  | none => otherwise
  | some s => announcement ++ s.spelling

/-- The tokens of a row of statements. -/
def Stmt.spellings : List Stmt → List Glyph
  | [] => []
  | s :: ss => s.spelling ++ Stmt.spellings ss

/-- The tokens of a function, without the keyword in front of it. -/
def FunDecl.spelling : FunDecl → List Glyph
  | .mk name parameters body =>
    .token name :: .mark .leftParen
      :: Glyph.commaSeparated (parameters.map fun p ↦ [.token p]) ++ .mark .rightParen
      :: body.spelling

def FunDecl.spellings : List FunDecl → List Glyph
  | [] => []
  | f :: fs => f.spelling ++ FunDecl.spellings fs

end

theorem FunDecl.spellings_eq_flatten (fs : List FunDecl) :
    FunDecl.spellings fs = (fs.map FunDecl.spelling).flatten := by
  induction fs with
  | nil => rfl
  | cons f fs ih => rw [FunDecl.spellings, ih, List.map_cons, List.flatten_cons]

theorem Stmt.spellings_eq_flatten (ss : List Stmt) :
    Stmt.spellings ss = (ss.map Stmt.spelling).flatten := by
  induction ss with
  | nil => rfl
  | cons s ss ih => rw [Stmt.spellings, ih, List.map_cons, List.flatten_cons]

end Lox
