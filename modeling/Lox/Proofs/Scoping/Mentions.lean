import Lox.Proofs.Scoping.Judgement
import Lox.Syntax.Scoping

/-!
# The mentions of names

A program mentions names: it declares them, and it uses them. Every mention has a place in the
program, and a context says what scopes are around that place and which names they have declared
by then. All that the resolver finds out is said of single mentions here. What a use of a name
means, and whether a mention is an error, is a matter of the context and of nothing else, so both
are read off a list of the mentions of a program.

## Order

The mentions are listed in the order of the source, with two exceptions. The value of an assignment
comes before its target, and the increment of a for statement comes after the body. Neither matters
to what is declared where: expressions declare nothing, and the body of a for statement that was
parsed is no declaration.

## Initializers

A variable is declared before its initializer. Inside the initializer of a local variable the
variable is on the way, as `Context.awaiting` says.
-/

namespace Lox

open Scoping

/-! ## Declarations -/

mutual

/-- The names that a statement declares in the scope in which it stands. -/
def Stmt.declares : Stmt → List String
  | .var name _ | .class name _ _ => [name.lexeme]
  | .function f => [f.name.lexeme]
  | .branch _ yes no => yes.declares ++ Stmt.declaresOption no
  | .loop _ body => body.declares
  | .expression _ | .print _ | .block _ | .forLoop _ _ _ _ | .return _ _ => []

def Stmt.declaresOption : Option Stmt → List String
  | none => []
  | some st => st.declares

end

namespace Context

/-- Declares names one after the other. -/
def declareAll (ctx : Context) (names : List String) : Context := names.foldl declare ctx

/-- The context behind a statement, with whatever it declares. -/
def behind (ctx : Context) (st : Stmt) : Context := ctx.declareAll st.declares

instance (ctx : Context) (x : String) : Decidable (ctx.Admits x) :=
  match ctx with
  | .names xs :: _ => inferInstanceAs (Decidable (x ∉ xs))
  | [] | .self :: _ | .parent _ :: _ => inferInstanceAs (Decidable True)

end Context

/-! ## Mentions -/

/-- A mention of a name, with the scopes around it. -/
inductive Mention where
  /-- A variable, a function, a class or a parameter is declared. -/
  | declared (name : Token) (scopes : Context)
  /-- A class is given a superclass. -/
  | extended (subclass superclass : Token)
  /-- A variable is read, perhaps while another one is on the way. -/
  | read (r : Reference) (scopes : Context) (awaiting : Option String)
  | assigned (r : Reference) (scopes : Context)
  | self (keyword : Reference) (scopes : Context)
  | inherited (keyword : Reference) (scopes : Context)

namespace Mention

/-- The use of a name, if the mention is one, together with the scopes that are searched for it.
Where the innermost class has no superclass, none are searched for `super`. -/
def use? : Mention → Option (Use × Reference × Context)
  | read r scopes _ | assigned r scopes => some (.variable, r, scopes)
  | self keyword scopes => some (.self, keyword, scopes)
  | inherited keyword scopes => if scopes.inherits then some (.inherited, keyword, scopes) else none
  | declared _ _ | extended _ _ => none

/-- What is found for a mention: for a use of a name that some scope around it has declared, the
number of scopes out to the innermost of those. -/
def finding? (mention : Mention) : Option Finding :=
  mention.use?.bind fun (use, r, scopes) ↦
    (scopes.distance? r.name.lexeme).map (Finding.mk use r)

theorem finding?_of_use {mention : Mention} {use : Use} {r : Reference} {scopes : Context}
    (h : mention.use? = some (use, r, scopes)) :
    mention.finding? = (scopes.distance? r.name.lexeme).map (Finding.mk use r) := by
  rw [finding?, h, Option.bind_some]

/-- What is wrong with a mention: the name has been declared in the same scope before, or it is read
in its own initializer, or a class inherits from itself. -/
def complaint? : Mention → Option (Token × ScopeError)
  | declared name scopes => if scopes.Admits name.lexeme then none else some (name, .redeclared)
  | extended subclass superclass =>
    if superclass.lexeme = subclass.lexeme then some (superclass, .selfInheritance) else none
  | read r _ awaiting =>
    if awaiting = some r.name.lexeme then some (r.name, .ownInitializer) else none
  | assigned _ _ | self _ _ | inherited _ _ => none

end Mention

/-! ## The mentions in a program -/

/-- A reference with its distance filled in. -/
def Reference.located (ctx : Context) (r : Reference) : Reference :=
  ⟨r.name, ctx.distance? r.name.lexeme⟩

section Expressions

variable (ctx : Context) (awaiting : Option String)

mutual

/-- The mentions in an expression. -/
def Expr.mentions : Expr → List Mention
  | .literal _ => []
  | .group inner | .unary _ inner | .property inner _ => inner.mentions
  | .binary left _ right | .logical left _ right => left.mentions ++ right.mentions
  | .var target => [.read target ctx awaiting]
  | .assign target value => value.mentions ++ [.assigned target ctx]
  | .setProperty object _ value => value.mentions ++ object.mentions
  | .call callee _ arguments => callee.mentions ++ Expr.mentionsRow arguments
  | .self keyword => [.self keyword ctx]
  | .inherited keyword _ => [.inherited keyword ctx]

def Expr.mentionsRow : List Expr → List Mention
  | [] => []
  | e :: es => e.mentions ++ Expr.mentionsRow es

end

mutual

/-- An expression with its distances filled in. -/
def Expr.located : Expr → Expr
  | .literal value => .literal value
  | .group inner => .group inner.located
  | .unary operator operand => .unary operator operand.located
  | .binary left operator right => .binary left.located operator right.located
  | .logical left operator right => .logical left.located operator right.located
  | .var target => .var (target.located ctx)
  | .property object name => .property object.located name
  | .assign target value => .assign (target.located ctx) value.located
  | .setProperty object name value => .setProperty object.located name value.located
  | .call callee paren arguments => .call callee.located paren (Expr.locatedRow arguments)
  | .self keyword => .self (keyword.located ctx)
  | .inherited keyword method =>
    .inherited (if ctx.inherits then keyword.located ctx else ⟨keyword.name, none⟩) method

def Expr.locatedRow : List Expr → List Expr
  | [] => []
  | e :: es => e.located :: Expr.locatedRow es

end

/-- The mentions in an expression that may be absent. -/
def Expr.mentionsOption (e : Option Expr) : List Mention := e.elim [] (Expr.mentions ctx awaiting)

end Expressions

/-- The mentions of the parameters of a function, the context being that of the first one. -/
def parameterMentions (ctx : Context) : List Token → List Mention
  | [] => []
  | p :: rest => .declared p ctx :: parameterMentions (ctx.declare p.lexeme) rest

namespace Context

/-- The scope of a for statement behind its initializer. -/
def insideFor (ctx : Context) (initializer : Option Stmt) : Context :=
  declareAll (.names [] :: ctx) (Stmt.declaresOption initializer)

/-- The scope of the parameters of a function. -/
def insideFunction (ctx : Context) (parameters : List Token) : Context :=
  declareAll (.names [] :: ctx) (parameters.map Token.lexeme)

/-- The two scopes of a class. -/
def insideClass (ctx : Context) (inherits : Bool) : Context := .self :: .parent inherits :: ctx

end Context

mutual

/-- The mentions in a statement. -/
def Stmt.mentions (ctx : Context) : Stmt → List Mention
  | .expression value | .print value => value.mentions ctx none
  | .var name initializer =>
    .declared name ctx ::
      Expr.mentionsOption (ctx.declare name.lexeme) (ctx.awaiting name.lexeme) initializer
  | .block body => Stmt.mentionsRow (.names [] :: ctx) body
  | .branch condition yes no =>
    condition.mentions ctx none ++ yes.mentions ctx ++ Stmt.mentionsOption (ctx.behind yes) no
  | .loop condition body => condition.mentions ctx none ++ body.mentions ctx
  | .forLoop initializer condition increment body =>
    Stmt.mentionsOption (.names [] :: ctx) initializer
      ++ Expr.mentionsOption (ctx.insideFor initializer) none condition
      ++ body.mentions (ctx.insideFor initializer)
      ++ Expr.mentionsOption ((ctx.insideFor initializer).behind body) none increment
  | .function f => .declared f.name ctx :: f.mentions (ctx.declare f.name.lexeme)
  | .return _ value => Expr.mentionsOption ctx none value
  | .class name superclass methods =>
    .declared name ctx ::
      (superclass.elim [] fun r ↦
        [.extended name r.name, .read r (ctx.declare name.lexeme) none])
      ++ FunDecl.mentionsRow ((ctx.declare name.lexeme).insideClass superclass.isSome) methods

def Stmt.mentionsOption (ctx : Context) : Option Stmt → List Mention
  | none => []
  | some st => st.mentions ctx

/-- The mentions in a row of statements, each of them behind those before it. -/
def Stmt.mentionsRow (ctx : Context) : List Stmt → List Mention
  | [] => []
  | st :: rest => st.mentions ctx ++ Stmt.mentionsRow (ctx.behind st) rest

/-- The mentions in a function or a method, apart from its own name. -/
def FunDecl.mentions (ctx : Context) : FunDecl → List Mention
  | .mk _ parameters body =>
    parameterMentions (.names [] :: ctx) parameters ++ body.mentions (ctx.insideFunction parameters)

def FunDecl.mentionsRow (ctx : Context) : List FunDecl → List Mention
  | [] => []
  | f :: rest => f.mentions ctx ++ FunDecl.mentionsRow ctx rest

end

mutual

/-- A statement with its distances filled in. -/
def Stmt.located (ctx : Context) : Stmt → Stmt
  | .expression value => .expression (value.located ctx)
  | .print value => .print (value.located ctx)
  | .var name initializer =>
    .var name (initializer.map (Expr.located (ctx.declare name.lexeme)))
  | .block body => .block (Stmt.locatedRow (.names [] :: ctx) body)
  | .branch condition yes no =>
    .branch (condition.located ctx) (yes.located ctx) (Stmt.locatedOption (ctx.behind yes) no)
  | .loop condition body => .loop (condition.located ctx) (body.located ctx)
  | .forLoop initializer condition increment body =>
    .forLoop (Stmt.locatedOption (.names [] :: ctx) initializer)
      (condition.map (Expr.located (ctx.insideFor initializer)))
      (increment.map (Expr.located ((ctx.insideFor initializer).behind body)))
      (body.located (ctx.insideFor initializer))
  | .function f => .function (f.located (ctx.declare f.name.lexeme))
  | .return keyword value => .return keyword (value.map (Expr.located ctx))
  | .class name superclass methods =>
    .class name (superclass.map (Reference.located (ctx.declare name.lexeme)))
      (FunDecl.locatedRow ((ctx.declare name.lexeme).insideClass superclass.isSome) methods)

def Stmt.locatedOption (ctx : Context) : Option Stmt → Option Stmt
  | none => none
  | some st => some (st.located ctx)

def Stmt.locatedRow (ctx : Context) : List Stmt → List Stmt
  | [] => []
  | st :: rest => st.located ctx :: Stmt.locatedRow (ctx.behind st) rest

def FunDecl.located (ctx : Context) : FunDecl → FunDecl
  | .mk name parameters body => .mk name parameters (body.located (ctx.insideFunction parameters))

def FunDecl.locatedRow (ctx : Context) : List FunDecl → List FunDecl
  | [] => []
  | f :: rest => f.located ctx :: FunDecl.locatedRow ctx rest

end

end Lox
