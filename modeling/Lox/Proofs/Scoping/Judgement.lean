import Lox.Proofs.Syntax.Grammar

/-!
# Programs whose names are resolved

What it means that the distances in a tree are right, said without the walk that fills them in. A
context lists the scopes around a place in the program, each with the names that it has declared so
far. A use of a name is right if its distance is the number of scopes out to the first one that
declares the name; a use without a distance means that none of them does.

## Initializers

A local variable is declared before its initializer, so inside the initializer its name already
means the new variable, though that one is not there yet while the program runs. Reading the name is
an error. Assigning to it is not noticed, and it is what makes the tree and the frames of a running
program disagree. So an assignment of that kind is a case of its own, which is allowed only for the
names that are excused.
-/

namespace Lox

/-! ## Contexts -/

/-- A scope, as far as it is known before the program runs. -/
inductive Layer where
  /-- A block, a for statement or the parameters of a function, with the names declared so far. -/
  | names (xs : List String)
  /-- The scope of `this` around a method. -/
  | self
  /-- The scope of `super` around a class, which is empty if nothing is inherited. -/
  | parent (inherits : Bool)

def Layer.binds : Layer → String → Bool
  | names xs, x => decide (x ∈ xs)
  | self, x => decide (x = "this")
  | parent inherits, x => inherits && decide (x = "super")

/-- The scopes around a place in a program, the innermost first. -/
abbrev Context := List Layer

namespace Context

/-- How many scopes lie between a place and the declaration of a name. -/
def distance? (ctx : Context) (x : String) : Option Nat := ctx.findIdx? fun layer ↦ layer.binds x

/-- Whether the innermost class around a place has a superclass. -/
def inherits : Context → Bool
  | [] => false
  | .parent inherits :: _ => inherits
  | _ :: outer => inherits outer

/-- Declares a name. Outside of all scopes nothing is declared. -/
def declare : Context → String → Context
  | .names xs :: outer, x => .names (x :: xs) :: outer
  | ctx, _ => ctx

/-- Whether a name is new in the innermost scope. -/
def Admits : Context → String → Prop
  | .names xs :: _, x => x ∉ xs
  | _, _ => True

/-- A place where a statement can be. -/
def IsOpen : Context → Prop
  | [] | .names _ :: _ => True
  | _ => False

/-- The variable that is on the way while the initializer for a name is evaluated. -/
def awaiting : Context → String → Option String
  | [], _ => none
  | _, x => some x

end Context

/-- The name that a statement declares. -/
def Stmt.declared? : Stmt → Option Token
  | var name _ | «class» name _ _ => some name
  | function f => some f.name
  | _ => none

/-- The context behind a statement. -/
def Context.after (ctx : Context) (st : Stmt) : Context :=
  match st.declared? with
  | some name => ctx.declare name.lexeme
  | none => ctx

namespace Context

theorem after_eq_self {ctx : Context} {st : Stmt} (h : st.declared? = none) :
    ctx.after st = ctx := by rw [after, h]

theorem isOpen_after {ctx : Context} (h : ctx.IsOpen) (st : Stmt) : (ctx.after st).IsOpen := by
  rw [after]
  cases st.declared? with
  | none => exact h
  | some name =>
    match ctx, h with
    | [], _ => trivial
    | .names xs :: outer, _ => trivial

theorem isEmpty_after (ctx : Context) (st : Stmt) : (ctx.after st).isEmpty = ctx.isEmpty := by
  rw [after]
  cases st.declared? with
  | none => rfl
  | some name =>
    match ctx with
    | [] | .names _ :: _ | .self :: _ | .parent _ :: _ => rfl

/-- Statements declare names in the innermost scope only. -/
theorem exists_after_names (xs : List String) (outer : Context) (st : Stmt) :
    ∃ ys, Context.after (.names xs :: outer) st = .names ys :: outer := by
  rw [after]
  cases st.declared? with
  | none => exact ⟨xs, rfl⟩
  | some name => exact ⟨name.lexeme :: xs, rfl⟩

theorem exists_foldl_after_names (xs : List String) (outer : Context) (body : List Stmt) :
    ∃ ys, body.foldl Context.after (.names xs :: outer) = .names ys :: outer := by
  induction body generalizing xs with
  | nil => exact ⟨xs, rfl⟩
  | cons st body ih =>
    obtain ⟨ys, hys⟩ := exists_after_names xs outer st
    rw [List.foldl_cons, hys]
    exact ih ys

theorem distance?_cons (layer : Layer) (ctx : Context) (x : String) :
    distance? (layer :: ctx) x
      = if layer.binds x = true then some 0 else (ctx.distance? x).map (· + 1) :=
  List.findIdx?_cons

theorem distance?_declare_of_ne {x y : String} (h : y ≠ x) (ctx : Context) :
    (ctx.declare x).distance? y = ctx.distance? y := by
  match ctx with
  | [] | .self :: _ | .parent _ :: _ => rfl
  | .names xs :: outer =>
    have hbinds : (Layer.names (x :: xs)).binds y = (Layer.names xs).binds y := by
      simp [Layer.binds, h]
    rw [declare, distance?_cons, distance?_cons, hbinds]

theorem inherits_declare (ctx : Context) (x : String) :
    (ctx.declare x).inherits = ctx.inherits := by
  match ctx with
  | [] | .names _ :: _ | .self :: _ | .parent _ :: _ => rfl

end Context

theorem Stmt.declared?_eq_none_iff {st : Stmt} :
    st.declared? = none ↔ st.isDeclaration = false := by
  cases st <;> simp [declared?, isDeclaration]

/-- A name that a program can declare. -/
def Ordinary (x : String) : Prop := x ≠ "this" ∧ x ≠ "super"

theorem Layer.not_binds_of_not_ordinary {xs : List String} (hxs : ∀ x ∈ xs, Ordinary x) {x : String}
    (hx : ¬ Ordinary x) : (names xs).binds x = false :=
  decide_eq_false fun hmem ↦ hx (hxs x hmem)

/-! ## Expressions -/

/-- The distances in an expression fit its context, while some variable may be on the way. -/
inductive Expr.Scoped (excused : String → Prop) (ctx : Context) (pending : Option String) :
    Expr → Prop
  | literal {value : Literal} : Scoped excused ctx pending (.literal value)
  | group {inner : Expr} :
      inner.Scoped excused ctx pending → Scoped excused ctx pending (.group inner)
  | unary {operator : Token} {operand : Expr} :
      operand.Scoped excused ctx pending → Scoped excused ctx pending (.unary operator operand)
  | binary {left : Expr} {operator : Token} {right : Expr} :
      left.Scoped excused ctx pending → right.Scoped excused ctx pending →
      Scoped excused ctx pending (.binary left operator right)
  | logical {left : Expr} {operator : Token} {right : Expr} :
      left.Scoped excused ctx pending → right.Scoped excused ctx pending →
      Scoped excused ctx pending (.logical left operator right)
  | var {r : Reference} :
      Ordinary r.name.lexeme → pending ≠ some r.name.lexeme →
      r.distance = ctx.distance? r.name.lexeme → Scoped excused ctx pending (.var r)
  | property {object : Expr} {name : Token} :
      object.Scoped excused ctx pending → Scoped excused ctx pending (.property object name)
  | assign {r : Reference} {value : Expr} :
      Ordinary r.name.lexeme → pending ≠ some r.name.lexeme →
      r.distance = ctx.distance? r.name.lexeme → value.Scoped excused ctx pending →
      Scoped excused ctx pending (.assign r value)
  | assignPending {r : Reference} {value : Expr} :
      pending = some r.name.lexeme → excused r.name.lexeme → r.distance = some 0 →
      value.Scoped excused ctx pending → Scoped excused ctx pending (.assign r value)
  | setProperty {object : Expr} {name : Token} {value : Expr} :
      object.Scoped excused ctx pending → value.Scoped excused ctx pending →
      Scoped excused ctx pending (.setProperty object name value)
  | call {callee : Expr} {paren : Token} {arguments : List Expr} :
      callee.Scoped excused ctx pending →
      (∀ argument ∈ arguments, argument.Scoped excused ctx pending) →
      Scoped excused ctx pending (.call callee paren arguments)
  | self {r : Reference} :
      r.name.lexeme = "this" → r.distance = ctx.distance? "this" →
      Scoped excused ctx pending (.self r)
  | inherited {r : Reference} {method : Token} :
      r.distance = (if ctx.inherits then ctx.distance? "super" else none) →
      Scoped excused ctx pending (.inherited r method)

/-! ## Statements -/

mutual

/-- The distances in a statement fit its context. Inside of a function there may be returns. -/
inductive Stmt.Scoped (excused : String → Prop) : Bool → Context → Stmt → Prop
  | expression {inside : Bool} {ctx : Context} {value : Expr} :
      value.Scoped excused ctx none → Stmt.Scoped excused inside ctx (.expression value)
  | print {inside : Bool} {ctx : Context} {value : Expr} :
      value.Scoped excused ctx none → Stmt.Scoped excused inside ctx (.print value)
  | var {inside : Bool} {ctx : Context} {name : Token} {initializer : Option Expr} :
      Ordinary name.lexeme → ctx.Admits name.lexeme →
      (∀ e ∈ initializer, e.Scoped excused ctx (ctx.awaiting name.lexeme)) →
      Stmt.Scoped excused inside ctx (.var name initializer)
  | block {inside : Bool} {ctx : Context} {body : List Stmt} :
      Stmt.RowScoped excused inside (.names [] :: ctx) body →
      Stmt.Scoped excused inside ctx (.block body)
  | branch {inside : Bool} {ctx : Context} {condition : Expr} {yes : Stmt} {no : Option Stmt} :
      condition.Scoped excused ctx none → yes.Scoped excused inside ctx → yes.declared? = none →
      (∀ st ∈ no, st.Scoped excused inside ctx) → (∀ st ∈ no, st.declared? = none) →
      Stmt.Scoped excused inside ctx (.branch condition yes no)
  | loop {inside : Bool} {ctx : Context} {condition : Expr} {body : Stmt} :
      condition.Scoped excused ctx none → body.Scoped excused inside ctx → body.declared? = none →
      Stmt.Scoped excused inside ctx (.loop condition body)
  | forLoop {inside : Bool} {ctx inner : Context} {initializer : Option Stmt}
      {condition increment : Option Expr} {body : Stmt} :
      (∀ st ∈ initializer, st.Scoped excused inside (.names [] :: ctx)) →
      inner = initializer.elim (.names [] :: ctx) (Context.after (.names [] :: ctx)) →
      (∀ e ∈ condition, e.Scoped excused inner none) →
      (∀ e ∈ increment, e.Scoped excused inner none) →
      body.Scoped excused inside inner → body.declared? = none →
      Stmt.Scoped excused inside ctx (.forLoop initializer condition increment body)
  | function {inside : Bool} {ctx : Context} {f : FunDecl} :
      Ordinary f.name.lexeme → ctx.Admits f.name.lexeme →
      f.Scoped excused (ctx.declare f.name.lexeme) → Stmt.Scoped excused inside ctx (.function f)
  | return {ctx : Context} {keyword : Token} {value : Option Expr} :
      (∀ e ∈ value, e.Scoped excused ctx none) →
      Stmt.Scoped excused true ctx (.return keyword value)
  | class {inside : Bool} {ctx : Context} {name : Token} {superclass : Option Reference}
      {methods : List FunDecl} :
      Ordinary name.lexeme → ctx.Admits name.lexeme →
      (∀ r ∈ superclass, Ordinary r.name.lexeme ∧ r.name.lexeme ≠ name.lexeme ∧
        r.distance = ctx.distance? r.name.lexeme) →
      (∀ f ∈ methods, f.Scoped excused
        (.self :: .parent superclass.isSome :: ctx.declare name.lexeme)) →
      Stmt.Scoped excused inside ctx (.class name superclass methods)

/-- The distances in a row of statements fit, each statement behind those before it. -/
inductive Stmt.RowScoped (excused : String → Prop) : Bool → Context → List Stmt → Prop
  | nil {inside : Bool} {ctx : Context} : Stmt.RowScoped excused inside ctx []
  | cons {inside : Bool} {ctx : Context} {st : Stmt} {rest : List Stmt} :
      st.Scoped excused inside ctx → Stmt.RowScoped excused inside (ctx.after st) rest →
      Stmt.RowScoped excused inside ctx (st :: rest)

/-- The distances in the body of a function fit the context of its declaration. -/
inductive FunDecl.Scoped (excused : String → Prop) : Context → FunDecl → Prop
  | mk {ctx : Context} {name : Token} {parameters : List Token} {body : Stmt} :
      (parameters.map Token.lexeme).Nodup → (∀ p ∈ parameters, Ordinary p.lexeme) →
      body.Scoped excused true (.names (parameters.map Token.lexeme) :: ctx) →
      body.declared? = none → FunDecl.Scoped excused ctx (.mk name parameters body)

end

/-! ## More names that are excused -/

variable {excused excused' : String → Prop}

theorem Expr.Scoped.mono {e : Expr} {ctx : Context} {pending : Option String}
    (h : e.Scoped excused ctx pending)
    (hexcused : ∀ x, excused x → excused' x) : e.Scoped excused' ctx pending := by
  induction h with
  | literal => exact .literal
  | group _ ih => exact .group ih
  | unary _ ih => exact .unary ih
  | binary _ _ ihl ihr => exact .binary ihl ihr
  | logical _ _ ihl ihr => exact .logical ihl ihr
  | var hordinary hpending hdistance => exact .var hordinary hpending hdistance
  | property _ ih => exact .property ih
  | assign hordinary hpending hdistance _ ih => exact .assign hordinary hpending hdistance ih
  | assignPending hpending h hdistance _ ih =>
    exact .assignPending hpending (hexcused _ h) hdistance ih
  | setProperty _ _ ih ih' => exact .setProperty ih ih'
  | call _ _ ih ih' => exact .call ih ih'
  | self hthis hdistance => exact .self hthis hdistance
  | inherited hdistance => exact .inherited hdistance

mutual

theorem Stmt.Scoped.mono (hexcused : ∀ x, excused x → excused' x) {inside : Bool} {ctx : Context}
    {st : Stmt} : st.Scoped excused inside ctx → st.Scoped excused' inside ctx
  | .expression h => .expression (h.mono hexcused)
  | .print h => .print (h.mono hexcused)
  | .var hname hadmits h => .var hname hadmits fun e he ↦ (h e he).mono hexcused
  | .block h => .block (Stmt.RowScoped.mono hexcused h)
  | .branch hcondition hyes hplain hno hplain' =>
    .branch (hcondition.mono hexcused) (Stmt.Scoped.mono hexcused hyes) hplain
      (fun st hst ↦ Stmt.Scoped.mono hexcused (hno st hst)) hplain'
  | .loop hcondition hbody hplain =>
    .loop (hcondition.mono hexcused) (Stmt.Scoped.mono hexcused hbody) hplain
  | .forLoop hinitializer hinner hcondition hincrement hbody hplain =>
    .forLoop (fun st hst ↦ Stmt.Scoped.mono hexcused (hinitializer st hst)) hinner
      (fun e he ↦ (hcondition e he).mono hexcused) (fun e he ↦ (hincrement e he).mono hexcused)
      (Stmt.Scoped.mono hexcused hbody) hplain
  | .function hname hadmits h => .function hname hadmits (FunDecl.Scoped.mono hexcused h)
  | .return h => .return fun e he ↦ (h e he).mono hexcused
  | .class hname hadmits hsuperclass h =>
    .class hname hadmits hsuperclass fun f hf ↦ FunDecl.Scoped.mono hexcused (h f hf)

theorem Stmt.RowScoped.mono (hexcused : ∀ x, excused x → excused' x) {inside : Bool} {ctx : Context}
    {body : List Stmt} :
    Stmt.RowScoped excused inside ctx body → Stmt.RowScoped excused' inside ctx body
  | .nil => .nil
  | .cons hst hrest => .cons (Stmt.Scoped.mono hexcused hst) (Stmt.RowScoped.mono hexcused hrest)

theorem FunDecl.Scoped.mono (hexcused : ∀ x, excused x → excused' x) {ctx : Context}
    {f : FunDecl} : f.Scoped excused ctx → f.Scoped excused' ctx
  | .mk hnodup hordinary hbody hplain =>
    .mk hnodup hordinary (Stmt.Scoped.mono hexcused hbody) hplain

end

/-! ## Variables that are assigned to in their own initializers -/

mutual

/-- Whether an expression assigns to a name. -/
def Expr.assigns (x : String) : Expr → Bool
  | .literal _ | .var _ | .self _ | .inherited _ _ => false
  | .group inner | .unary _ inner | .property inner _ => inner.assigns x
  | .binary left _ right | .logical left _ right | .setProperty left _ right =>
    left.assigns x || right.assigns x
  | .assign target value => decide (target.name.lexeme = x) || value.assigns x
  | .call callee _ arguments => callee.assigns x || Expr.anyAssigns x arguments

def Expr.anyAssigns (x : String) : List Expr → Bool
  | [] => false
  | e :: es => e.assigns x || Expr.anyAssigns x es

end

mutual

/-- Whether some local variable of a name is assigned to in its own initializer. Outside of all
scopes a variable is not local. -/
def Stmt.selfAssigns (x : String) (isLocal : Bool) : Stmt → Bool
  | .expression _ | .print _ | .return _ _ => false
  | .var name initializer =>
    isLocal && decide (name.lexeme = x) && initializer.any (Expr.assigns x)
  | .block body => Stmt.anySelfAssigns x true body
  | .branch _ yes none => yes.selfAssigns x isLocal
  | .branch _ yes (some no) => yes.selfAssigns x isLocal || no.selfAssigns x isLocal
  | .loop _ body => body.selfAssigns x isLocal
  | .forLoop none _ _ body => body.selfAssigns x true
  | .forLoop (some initializer) _ _ body =>
    initializer.selfAssigns x true || body.selfAssigns x true
  | .function f => f.selfAssigns x
  | .class _ _ methods => FunDecl.anySelfAssigns x methods

def Stmt.anySelfAssigns (x : String) (isLocal : Bool) : List Stmt → Bool
  | [] => false
  | st :: rest => st.selfAssigns x isLocal || Stmt.anySelfAssigns x isLocal rest

def FunDecl.selfAssigns (x : String) : FunDecl → Bool
  | .mk _ _ body => body.selfAssigns x true

def FunDecl.anySelfAssigns (x : String) : List FunDecl → Bool
  | [] => false
  | f :: rest => f.selfAssigns x || FunDecl.anySelfAssigns x rest

end

/-- Whether no local variable of a program is assigned to in its own initializer. -/
def Steady (program : List Stmt) : Prop := ∀ x, Stmt.anySelfAssigns x false program = false

end Lox
