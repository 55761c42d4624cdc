import Lox.Proofs.Mirror
import Lox.Proofs.Recasting.Recast
import Lox.Syntax.Scoping

/-!
# Resolving a program that is recast

The resolver does the same whatever the lines are, whatever the slots of the references hold, and
whatever has been reported and found before: it looks at scopes only, and adds to the rest. In the
program that it returns it has filled in all slots itself, so that program differs in its lines
only. The references that it notes are those of the program that it was given.
-/

namespace Lox

variable (ρ : Recasting)

/-- A use of a name by a reference that is recast. -/
def Scoping.Finding.recast (x : Scoping.Finding) : Scoping.Finding :=
  { x with reference := x.reference.recast ρ }

/-- A state of the walk over a program that is recast, before which something had been reported and
found. -/
def Scoping.State.recast (errors : List (Token × ScopeError)) (findings : List Scoping.Finding)
    (s : Scoping.State) : Scoping.State :=
  { s with
    errors := s.errors.map (fun e ↦ (e.1.moved ρ.line, e.2)) ++ errors
    findings := s.findings.map (Scoping.Finding.recast ρ) ++ findings }

namespace Scoping

variable (errors : List (Token × ScopeError)) (findings : List Finding)

/-- A part of the walk that does the same when the program is recast. -/
abbrev Recasts {α α' : Type} (g : α → α') (p : Resolve α) (q : Resolve α') : Prop :=
  Mirrors (State.recast ρ errors findings) id g p q

variable {ρ errors findings} {α α' : Type} {g : α → α'}

namespace Recasts

theorem tooDeep : Recasts ρ errors findings g (throw .tooDeep) (throw .tooDeep) := .throw rfl

/-! ## Scopes and names -/

theorem report (name : Token) (error : ScopeError) :
    Recasts ρ errors findings id (Scoping.report name error)
      (Scoping.report (name.moved ρ.line) error) := .modify fun _ ↦ rfl

theorem bindName (name : String) (ready : Bool) :
    Recasts ρ errors findings id (Scoping.bind name ready) (Scoping.bind name ready) := by
  refine .modify fun s ↦ ?_
  obtain ⟨scopes, setting, reported, found⟩ := s
  cases scopes <;> rfl

theorem declare (name : Token) :
    Recasts ρ errors findings id (Scoping.declare name) (Scoping.declare (name.moved ρ.line)) := by
  rw [Scoping.declare, Scoping.declare]
  refine Mirrors.get.bind fun s ↦ ?_
  rw [State.recast, Token.lexeme_moved]
  dsimp only
  split
  · exact (report name .redeclared).bind fun _ ↦ bindName name.lexeme false
  · exact bindName name.lexeme false

theorem declareReady (name : Token) :
    Recasts ρ errors findings id (Scoping.declareReady name)
      (Scoping.declareReady (name.moved ρ.line)) :=
  (declare name).bind fun _ ↦ bindName name.lexeme true

theorem locate (use : Use) (r : Reference) :
    Recasts ρ errors findings (Reference.recast (.lines ρ.line)) (Scoping.locate use r)
      (Scoping.locate use (r.recast ρ)) := by
  rw [Scoping.locate, Scoping.locate]
  refine Mirrors.get.bind fun s ↦ ?_
  rw [State.recast, Reference.name_recast, Token.lexeme_moved]
  dsimp only
  cases distance? r.name.lexeme s.scopes with
  | none => exact .pure rfl
  | some d => exact Mirrors.bind (g := id) (.modify fun _ ↦ rfl) fun _ ↦ .pure rfl

theorem read (r : Reference) :
    Recasts ρ errors findings (Reference.recast (.lines ρ.line)) (Scoping.read r)
      (Scoping.read (r.recast ρ)) := by
  rw [Scoping.read, Scoping.read]
  refine Mirrors.get.bind fun s ↦ ?_
  rw [State.recast, Reference.name_recast, Token.lexeme_moved]
  dsimp only
  split
  · exact (report r.name .ownInitializer).bind fun _ ↦ locate .variable r
  · exact locate .variable r

theorem withScope {p : Resolve α} {q : Resolve α'} (h : Recasts ρ errors findings g p q) :
    Recasts ρ errors findings g (Scoping.withScope p) (Scoping.withScope q) := by
  intro s
  have hq : q { s.recast ρ errors findings with scopes := .empty :: s.scopes }
      = carried (State.recast ρ errors findings) id g (p { s with scopes := .empty :: s.scopes }) :=
    h { s with scopes := .empty :: s.scopes }
  have hscopes : (s.recast ρ errors findings).scopes = s.scopes := rfl
  rw [Scoping.withScope, Scoping.withScope, hscopes, hq]
  cases p { s with scopes := .empty :: s.scopes } <;> rfl

theorem withSetting {p : Resolve α} {q : Resolve α'} (setting : Setting)
    (h : Recasts ρ errors findings g p q) :
    Recasts ρ errors findings g (Scoping.withSetting setting p)
      (Scoping.withSetting setting q) := by
  intro s
  have hq : q { s.recast ρ errors findings with setting }
      = carried (State.recast ρ errors findings) id g (p { s with setting }) :=
    h { s with setting }
  rw [Scoping.withSetting, Scoping.withSetting, hq]
  cases p { s with setting } <;> rfl

theorem withClassScopes {p : Resolve α} {q : Resolve α'} (inherits : Bool)
    (h : Recasts ρ errors findings g p q) :
    Recasts ρ errors findings g (Scoping.withClassScopes inherits p)
      (Scoping.withClassScopes inherits q) := by
  have hinner : Recasts ρ errors findings g
      (Scoping.withScope (Scoping.bind "this" true >>= fun _ ↦ p))
      (Scoping.withScope (Scoping.bind "this" true >>= fun _ ↦ q)) :=
    withScope ((bindName "this" true).bind fun _ ↦ h)
  rw [Scoping.withClassScopes, Scoping.withClassScopes]
  refine withScope ?_
  cases inherits with
  | true => exact (bindName "super" true).bind fun _ ↦ hinner
  | false => exact hinner

theorem optional {β β' : Type} {k : β → β'} {walk : α → Resolve β} {walk' : α' → Resolve β'}
    {o : Option α} (h : ∀ a ∈ o, Recasts ρ errors findings k (walk a) (walk' (g a))) :
    Recasts ρ errors findings (Option.map k) (Scoping.optional walk o)
      (Scoping.optional walk' (o.map g)) := by
  cases o with
  | none => exact .pure rfl
  | some a => exact (h a rfl).map fun _ ↦ rfl

/-! ## The walk -/

theorem expression : ∀ nesting e, Recasts ρ errors findings (Expr.recast (.lines ρ.line))
    (Scoping.expression nesting e) (Scoping.expression nesting (e.recast ρ))
  | 0, _ => tooDeep
  | nesting + 1, e => by
    cases e with
    | literal value => exact .pure rfl
    | group inner | unary operator operand | property object name =>
      exact (expression nesting _).map fun _ ↦ rfl
    | binary left operator right | logical left operator right =>
      exact (expression nesting left).bind fun _ ↦ (expression nesting right).bind fun _ ↦ .pure rfl
    | var target => exact (read target).map fun _ ↦ rfl
    | assign target value =>
      exact (expression nesting value).bind fun _ ↦ (locate _ _).bind fun _ ↦ .pure rfl
    | setProperty object name value =>
      exact (expression nesting value).bind fun _ ↦ (expression nesting object).bind fun _ ↦
        .pure rfl
    | call callee paren arguments =>
      rw [Expr.recast, Expr.recastRow_eq_map]
      refine (expression nesting callee).bind fun _ ↦
        (Mirrors.mapM fun e _ ↦ expression nesting e).bind fun es ↦ .pure ?_
      rw [Expr.recast, Expr.recastRow_eq_map]
    | self keyword => exact (locate _ _).map fun _ ↦ rfl
    | inherited keyword method =>
      refine Mirrors.get.bind fun s ↦ ?_
      rw [State.recast]
      dsimp only
      split
      · exact (locate _ _).bind fun _ ↦ .pure rfl
      · exact .pure rfl

theorem superclass (subclass : Token) (r : Reference) :
    Recasts ρ errors findings (Reference.recast (.lines ρ.line)) (Scoping.superclass subclass r)
      (Scoping.superclass (subclass.moved ρ.line) (r.recast ρ)) := by
  rw [Scoping.superclass, Scoping.superclass, Reference.name_recast, Token.lexeme_moved,
    Token.lexeme_moved]
  split
  · exact (report r.name .selfInheritance).bind fun _ ↦ read r
  · exact read r

end Recasts

/-- Every function of the walk over statements does the same on other lines. -/
structure RecastsAll (ρ : Recasting) (errors : List (Token × ScopeError)) (findings : List Finding)
    (nesting : Nat) : Prop where
  statement : ∀ st, Recasts ρ errors findings (Stmt.recast (.lines ρ.line)) (statement nesting st)
    (statement nesting (st.recast ρ))
  statements : ∀ body, Recasts ρ errors findings (List.map (Stmt.recast (.lines ρ.line)))
    (statements nesting body) (statements nesting (body.map (Stmt.recast ρ)))
  classDeclaration : ∀ name parent methods, Recasts ρ errors findings (Stmt.recast (.lines ρ.line))
    (classDeclaration nesting name parent methods)
    (classDeclaration nesting (name.moved ρ.line) (parent.map (Reference.recast ρ))
      (methods.map (FunDecl.recast ρ)))
  classMethods : ∀ methods, Recasts ρ errors findings (List.map (FunDecl.recast (.lines ρ.line)))
    (classMethods nesting methods) (classMethods nesting (methods.map (FunDecl.recast ρ)))
  function : ∀ d, Recasts ρ errors findings (FunDecl.recast (.lines ρ.line)) (function nesting d)
    (function nesting (d.recast ρ))

namespace RecastsAll

variable {nesting : Nat}

theorem statement_succ (ih : RecastsAll ρ errors findings nesting) (st : Stmt) :
    Recasts ρ errors findings (Stmt.recast (.lines ρ.line)) (Scoping.statement (nesting + 1) st)
      (Scoping.statement (nesting + 1) (st.recast ρ)) := by
  have hoptional : ∀ o : Option Expr,
      Recasts ρ errors findings (Option.map (Expr.recast (.lines ρ.line)))
      (optional (expression nesting) o) (optional (expression nesting) (o.map (Expr.recast ρ))) :=
    fun _ ↦ .optional fun e _ ↦ .expression nesting e
  cases st with
  | expression value | print value => exact (Recasts.expression nesting value).map fun _ ↦ rfl
  | var name initializer =>
    exact (Recasts.declare name).bind fun _ ↦ (hoptional initializer).bind fun _ ↦
      (Recasts.bindName name.lexeme true).bind fun _ ↦ .pure rfl
  | block body =>
    rw [Stmt.recast, Stmt.recastRow_eq_map]
    refine (Recasts.withScope (ih.statements body)).map fun body ↦ ?_
    rw [Stmt.recast, Stmt.recastRow_eq_map]
  | branch condition yes no =>
    rw [Stmt.recast, Stmt.recastOption_eq_map]
    refine (Recasts.expression nesting condition).bind fun _ ↦ (ih.statement yes).bind fun _ ↦
      (Recasts.optional fun st _ ↦ ih.statement st).bind fun no ↦ .pure ?_
    rw [Stmt.recast, Stmt.recastOption_eq_map]
  | loop condition body =>
    exact (Recasts.expression nesting condition).bind fun _ ↦ (ih.statement body).bind fun _ ↦
      .pure rfl
  | forLoop initializer condition increment body =>
    rw [Stmt.recast, Stmt.recastOption_eq_map]
    refine Recasts.withScope ((Recasts.optional fun st _ ↦ ih.statement st).bind fun initializer ↦
      (hoptional condition).bind fun _ ↦ (ih.statement body).bind fun _ ↦
        (hoptional increment).bind fun _ ↦ .pure ?_)
    rw [Stmt.recast, Stmt.recastOption_eq_map]
  | function declaration =>
    rw [Stmt.recast, Scoping.statement, Scoping.statement, FunDecl.name_recast]
    exact (Recasts.declareReady declaration.name).bind fun _ ↦
      (ih.function declaration).map fun _ ↦ rfl
  | «return» keyword value => exact (hoptional value).map fun _ ↦ rfl
  | «class» name parent methods =>
    rw [Stmt.recast, FunDecl.recastRow_eq_map]
    exact ih.classDeclaration name parent methods

theorem classDeclaration_succ (ih : RecastsAll ρ errors findings nesting) (name : Token)
    (parent : Option Reference) (methods : List FunDecl) :
    Recasts ρ errors findings (Stmt.recast (.lines ρ.line))
      (Scoping.classDeclaration (nesting + 1) name parent methods)
      (Scoping.classDeclaration (nesting + 1) (name.moved ρ.line) (parent.map (Reference.recast ρ))
        (methods.map (FunDecl.recast ρ))) := by
  rw [Scoping.classDeclaration, Scoping.classDeclaration, Option.isSome_map]
  refine Recasts.withSetting _ ((Recasts.declareReady name).bind fun _ ↦ Mirrors.bind
    (Recasts.optional (g := Reference.recast ρ) fun r _ ↦ Recasts.superclass name r) fun parent ↦
      ?_)
  -- Whether there is a superclass does not depend on lines either.
  rw [Option.isSome_map]
  refine (Recasts.withClassScopes _ (ih.classMethods methods)).map fun methods ↦ ?_
  rw [Stmt.recast, FunDecl.recastRow_eq_map]

theorem of_nesting : ∀ nesting, RecastsAll ρ errors findings nesting
  | 0 => ⟨fun _ ↦ Recasts.tooDeep, fun _ ↦ Recasts.tooDeep, fun _ _ _ ↦ Recasts.tooDeep,
      fun _ ↦ Recasts.tooDeep, fun _ ↦ Recasts.tooDeep⟩
  | nesting + 1 =>
    have ih := of_nesting nesting
    { statement := ih.statement_succ
      statements := fun _ ↦ Mirrors.mapM fun st _ ↦ ih.statement st
      classDeclaration := ih.classDeclaration_succ
      classMethods := fun _ ↦ Mirrors.mapM fun d _ ↦ ih.function d
      function := fun d ↦ by
        obtain ⟨name, parameters, body⟩ := d
        exact Recasts.withScope ((Mirrors.forM fun p _ ↦ Recasts.declareReady p).bind fun _ ↦
          (ih.statement body).map fun _ ↦ rfl) }

end RecastsAll

end Scoping

end Lox
