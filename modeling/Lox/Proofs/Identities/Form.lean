import Lox.Analysis
import Lox.Proofs.Identities.Table

/-!
# Kinds of text

A source text is taken for a program or for a single expression. What is said about identities and
about the table of distances is the same for both, and so is the reason: the resolver looks at no
slot, and what it finds goes under the identities that the text was given.
-/

namespace Lox

namespace Scoping

/-- A walk over a program with other slots finds the same, with the references of that program. -/
theorem run_recast {α : Type} {φ : Option Nat → Option Nat} {g : α → α} {p q : Resolve α}
    (hg : ∀ a, g a = a) (h : Recasts (.slots φ) [] [] g p q) :
    run q = { run p with findings := (run p).findings.map (Finding.recast (.slots φ)) } := by
  have hstart := h ⟨[], .noClass, [], []⟩
  have herrors : ∀ errors : List (Token × ScopeError),
      errors.map (fun e ↦ (e.1.moved id, e.2)) ++ [] = errors := fun errors ↦
    (List.append_nil _).trans (List.map_id errors)
  rw [show State.recast (.slots φ) [] [] ⟨[], .noClass, [], []⟩ = ⟨[], .noClass, [], []⟩ from rfl]
    at hstart
  rw [run, hstart, run]
  cases p ⟨[], .noClass, [], []⟩ <;>
    simp only [carried, State.recast, herrors, hg, List.append_nil, List.map_reverse]

end Scoping

/-- A kind of text, with all that is needed to keep its distances in a table. -/
structure Form (α : Type) where
  parser : List Token → Token → Parsed α
  resolver : α → Resolved α
  /-- Changes what the slots hold. -/
  recast : (Option Nat → Option Nat) → α → α
  /-- The number of references. -/
  uses : α → Nat
  /-- Gives identities to the references, from a number on. -/
  keyed : Nat → α → α
  recast_recast : ∀ (φ ψ : Option Nat → Option Nat) (a : α),
    recast ψ (recast φ a) = recast (ψ ∘ φ) a
  recast_keyed : ∀ {φ : Option Nat → Option Nat} {k : Nat} {a : α}, FixesRange φ k (uses a) →
    recast φ (keyed k a) = keyed k a
  blank_keyed : ∀ (k : Nat) (a : α), recast (fun _ ↦ none) (keyed k a) = recast (fun _ ↦ none) a
  /-- The resolver looks at no slot. -/
  resolver_recast : ∀ (φ : Option Nat → Option Nat) (a : α), resolver (recast φ a)
    = { resolver a with findings := (resolver a).findings.map (.recast (.slots φ)) }
  /-- What a walk that gets through has noted is what it has filled in. -/
  recast_recordAll : ∀ {t : Locals} {k : Nat} {a b : α}, t.EmptyFrom k →
    (resolver (keyed k a)).result = some b →
    recast (t.recordAll (resolver (keyed k a)).findings).read (keyed k a) = b

namespace Form

variable {α : Type}

/-- Texts that are programs. -/
def program (nesting : Nat) : Form (List Stmt) where
  parser := parseProgram nesting
  resolver := resolveProgram nesting
  recast φ := Stmt.recastRow (.slots φ)
  uses := Stmt.usesRow
  keyed := Stmt.keyedRow
  recast_recast φ ψ a := Stmt.recastRow_recastRow (.slots φ) (.slots ψ) a
  recast_keyed h := Stmt.recastRow_keyedRow _ h
  blank_keyed k a := Stmt.blank_keyedRow a k
  resolver_recast φ a := by
    rw [Stmt.recastRow_eq_map]
    exact Scoping.run_recast
      (fun body ↦ (Stmt.recastRow_eq_map .same body).symm.trans (Stmt.recastRow_same body))
      (.mapM fun st _ ↦ (Scoping.RecastsAll.of_nesting nesting).statement st)
  recast_recordAll ht hresult := by
    have hresolved := resolveProgram_of_some hresult
    rw [hresolved] at hresult ⊢
    obtain rfl := Option.some.inj hresult
    exact Stmt.recastRow_eq_located _ (ht.isReadBy (Stmt.slots_mentionsRow _ [] _))

/-- Texts that are single expressions. -/
def expression (nesting : Nat) : Form Expr where
  parser := parseExpression nesting
  resolver := resolveExpression nesting
  recast φ := Expr.recast (.slots φ)
  uses := Expr.uses
  keyed := Expr.keyed
  recast_recast φ ψ e := e.recast_recast (.slots φ) (.slots ψ)
  recast_keyed h := Expr.recast_keyed _ h
  blank_keyed k e := e.blank_keyed k
  resolver_recast φ e := Scoping.run_recast Expr.recast_same (.expression nesting e)
  recast_recordAll ht hresult := by
    have hresolved := resolveExpression_of_some hresult
    rw [hresolved] at hresult ⊢
    obtain rfl := Option.some.inj hresult
    exact Expr.recast_eq_located _ (ht.isReadBy (Expr.slots_mentions none _ [] _))

/-- Analyzes a text, with the distances filled in. -/
def compile (F : Form α) (source : String) : Analysis α :=
  (Analysis.parse F.parser source).resolveClean F.resolver

end Form

end Lox
