import Lox.Proofs.Frames.Charts
import Lox.Proofs.Scoping.Walk

/-!
# Frames and the scopes of the resolver

The resolver opens a scope for everything that a frame is made for, apart from the globals, and
declares names there. What it has declared when it leaves the scope does not depend on what is
around, so it is found by a walk that begins in a new scope outside of all others. A frame binds no
other names.
-/

namespace Lox

namespace Scoping

variable {α : Type} {walk : Resolve α} {nesting : Nat} {x : String}

/-- A state in a new scope, outside of all others. -/
def inNewScope : State := ⟨[.empty], .noClass, [], []⟩

/-- The names that a walk has declared in a new scope when it is about to leave it. -/
def scopeNames (walk : Resolve α) : List String :=
  match walk inNewScope with
  | .ok _ s | .error _ s => (s.scopes.headD .empty).names

theorem inNewScope_faces : inNewScope.Faces [.names []] none := State.Faces.start.enter

theorem mem_names_settled (names : List String) (scope : Scope) (outer : List Scope) :
    x ∈ ((settled names (scope :: outer)).headD .empty).names ↔ x ∈ scope.names ∨ x ∈ names := by
  induction names generalizing scope with
  | nil => simp [settled]
  | cons y names ih =>
    rw [settled, List.foldl_cons, ← settled]
    refine (ih ((scope.insert y false).insert y true)).trans ?_
    rw [Bindings.mem_names_insert, Bindings.mem_names_insert, List.mem_cons, or_assoc, or_assoc,
      or_self_left]

/-- What a walk declares is in the scope when it is left. -/
theorem mem_scopeNames {a : α} {names : List String} {mentions : List Mention}
    (h : walk inNewScope = .ok a ((inNewScope.behind names).noting mentions)) :
    x ∈ scopeNames walk ↔ x ∈ names := by
  rw [scopeNames, h]
  refine (mem_names_settled names .empty []).trans ⟨fun h ↦ h.resolve_left ?_, .inr⟩
  exact List.not_mem_nil

theorem mem_scopeNames_statements {body : List Stmt} (hle : sizeOf body ≤ nesting) :
    x ∈ scopeNames (statements nesting body) ↔ x ∈ body.flatMap Stmt.declares :=
  mem_scopeNames ((Walks.of_nesting nesting).statements hle (Context.isOpen_names [] [])
    inNewScope_faces)

theorem mem_scopeNames_optional {initializer : Option Stmt} (hle : sizeOf initializer ≤ nesting) :
    x ∈ scopeNames (optional (statement nesting) initializer)
      ↔ x ∈ Stmt.declaresOption initializer :=
  mem_scopeNames ((Walks.of_nesting nesting).optional_statement_eq hle
    (Context.isOpen_names [] []) inNewScope_faces)

theorem mem_scopeNames_parameters {parameters : List Token} :
    x ∈ scopeNames (parameters.forM declareReady) ↔ x ∈ parameters.map Token.lexeme :=
  mem_scopeNames (forM_declareReady_eq (Context.isOpen_names [] []) inNewScope_faces)

end Scoping

/-- The resolver declares a name in the scope that a frame is made for, if it may nest deeply enough
to get through. The globals are in no scope of the resolver, and the built-in functions are declared
nowhere. -/
def Purpose.Resolves : Purpose → String → Prop
  | builtins, x => x ∈ Native.all.map Native.name
  | globals, _ => True
  | block body, x => ∀ nesting, sizeOf body ≤ nesting →
      x ∈ Scoping.scopeNames (Scoping.statements nesting body)
  | forLoop initializer, x => ∀ nesting, sizeOf initializer ≤ nesting →
      x ∈ Scoping.scopeNames (Scoping.optional (Scoping.statement nesting) initializer)
  | call declaration, x =>
      x ∈ Scoping.scopeNames (declaration.parameters.forM Scoping.declareReady)
  | bound _ _ _, x => x ∈ Scoping.scopeNames (Scoping.bind "this" true)
  | methods c, x => c.superclass.isSome = true ∧ x ∈ Scoping.scopeNames (Scoping.bind "super" true)

/-- A frame binds only names that the resolver has declared in its scope. -/
theorem Purpose.Fills.resolves {purpose : Purpose} {b : Bindings Value} {x : String}
    (h : purpose.Fills b) (hx : x ∈ b.names) : purpose.Resolves x := by
  cases purpose with
  | builtins =>
    rw [show b.names = _ from h] at hx
    exact hx
  | globals => trivial
  | block body => exact fun nesting hle ↦ (Scoping.mem_scopeNames_statements hle).mpr (h x hx).2
  | forLoop initializer =>
    exact fun nesting hle ↦ (Scoping.mem_scopeNames_optional hle).mpr (h x hx).2
  | call declaration => exact Scoping.mem_scopeNames_parameters.mpr (h x hx).2
  | bound c method self =>
    rw [show b = _ from h] at hx
    exact hx
  | methods c =>
    rw [show b = _ from h] at hx
    cases hparent : c.superclass with
    | none =>
      rw [hparent] at hx
      cases hx
    | some d =>
      rw [hparent] at hx
      exact ⟨by rw [hparent]; rfl, hx⟩

end Lox
