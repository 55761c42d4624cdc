import Lox.Proofs.Scoping.Walk

/-!
# Lexical addresses and static errors

The resolver finds out about every use of a name how many scopes out its declaration is, and it
complains about some mentions of names. Both are read off the mentions of the program, each of them
by itself: what is found for a use of a name is its lexical address, and a complaint changes nothing
about what is found elsewhere.

Programs are arbitrary trees here. Whether the parser can have produced a tree makes no difference
to the walk over it.
-/

namespace Lox

open Scoping

/-- The distances are lexical addresses. The resolver records one distance, in the order of the
walk, for each use of a name that some scope around it has declared before, and none for any other
use; the distance is the number of scopes out to the innermost of those. The same distances stand in
the program that it returns. It leaves all scopes and classes that it enters. -/
theorem resolver_addresses (program : List Stmt) :
    ∃ bound, ∀ nesting, bound ≤ nesting →
      (∃ errors, program.mapM (statement nesting) ⟨[], .noClass, [], []⟩
        = .ok (Stmt.locatedRow [] program) ⟨[], .noClass, errors,
            ((Stmt.mentionsRow [] program).filterMap Mention.finding?).reverse⟩) ∧
      (resolveProgram nesting program).result = some (Stmt.locatedRow [] program) ∧
      (resolveProgram nesting program).findings
        = (Stmt.mentionsRow [] program).filterMap Mention.finding? := by
  refine ⟨sizeOf program, fun nesting hle ↦
    ⟨⟨((Stmt.mentionsRow [] program).filterMap Mention.complaint?).reverse, ?_⟩, ?_, ?_⟩⟩
  · rw [mapM_program_eq hle, State.noting, List.append_nil, List.append_nil]
  · rw [resolveProgram_eq hle]
  · rw [resolveProgram_eq hle]

/-- A method, its parameters, the instance, the superclass and a global function around them. -/
example : (resolveProgram 60 [.class ⟨.identifier, "B", .nil, 1⟩
      (some ⟨⟨.identifier, "A", .nil, 1⟩, none⟩)
      [.mk ⟨.identifier, "m", .nil, 1⟩ [⟨.identifier, "x", .nil, 1⟩]
        (.block [.print (.call (.var ⟨⟨.identifier, "f", .nil, 1⟩, none⟩)
          ⟨.rightParen, ")", .nil, 1⟩
          [.var ⟨⟨.identifier, "x", .nil, 1⟩, none⟩, .self ⟨⟨.this, "this", .nil, 1⟩, none⟩,
            .inherited ⟨⟨.super, "super", .nil, 1⟩, none⟩
              ⟨.identifier, "m", .nil, 1⟩])])]]).findings
      = [⟨.variable, ⟨⟨.identifier, "x", .nil, 1⟩, none⟩, 1⟩,
        ⟨.self, ⟨⟨.this, "this", .nil, 1⟩, none⟩, 2⟩,
        ⟨.inherited, ⟨⟨.super, "super", .nil, 1⟩, none⟩, 3⟩] := by
  decide +kernel

/-- The static errors are those of single mentions, in the order of the walk, and they do not stop
it: a name that is declared again in a scope, a variable that is read in its own initializer, and a
class that inherits from itself. Outside of all scopes a name is never declared again, and no
variable is on the way. -/
theorem resolver_complaints (program : List Stmt) :
    (∃ bound, ∀ nesting, bound ≤ nesting →
      (resolveProgram nesting program).result.isSome = true ∧
      (resolveProgram nesting program).errors
        = (Stmt.mentionsRow [] program).filterMap Mention.complaint?) ∧
    (∀ name, (Mention.declared name []).complaint? = none) ∧
    (∀ x, Context.awaiting [] x = none) ∧
    ScopeError.redeclared.message = "Already a variable with this name in this scope." ∧
    ScopeError.ownInitializer.message = "Can't read local variable in its own initializer." ∧
    ScopeError.selfInheritance.message = "A class can't inherit from itself." := by
  refine ⟨⟨sizeOf program, fun nesting hle ↦ ?_⟩, fun _ ↦ rfl, fun _ ↦ rfl, rfl, rfl, rfl⟩
  rw [resolveProgram_eq hle]
  exact ⟨rfl, rfl⟩

end Lox
