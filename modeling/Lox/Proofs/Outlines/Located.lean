import Lox.Analysis
import Lox.Proofs.Outlines.Trees
import Lox.Proofs.Scoping.Depth

/-!
# Distances are not shown

Resolving the names of a program fills its distances in, and that is all it does to the program. So
the outline of a program that has been compiled is the outline of what was parsed.
-/

namespace Lox

theorem Reference.component_located (ctx : Context) (r : Reference) :
    (r.located ctx).component = r.component := rfl

mutual

theorem Expr.component_located (ctx : Context) : ∀ e : Expr, (e.located ctx).component = e.component
  | .literal _ | .var _ | .self _ => rfl
  | .group inner => by
    rw [Expr.located, Expr.component, Expr.component, Expr.component_located ctx inner]
  | .unary operator operand => by
    rw [Expr.located, Expr.component, Expr.component, Expr.component_located ctx operand]
  | .binary left operator right => by
    rw [Expr.located, Expr.component, Expr.component, Expr.component_located ctx left,
      Expr.component_located ctx right]
  | .logical left operator right => by
    rw [Expr.located, Expr.component, Expr.component, Expr.component_located ctx left,
      Expr.component_located ctx right]
  | .property object name => by
    rw [Expr.located, Expr.component, Expr.component, Expr.component_located ctx object]
  | .assign target value => by
    rw [Expr.located, Expr.component, Expr.component, Expr.component_located ctx value]
    rfl
  | .setProperty object name value => by
    rw [Expr.located, Expr.component, Expr.component, Expr.component_located ctx object,
      Expr.component_located ctx value]
  | .call callee paren arguments => by
    rw [Expr.located, Expr.component, Expr.component, Expr.component_located ctx callee,
      Expr.components_located ctx arguments]
  | .inherited keyword method => by
    rw [Expr.located]
    split_ifs <;> rfl

theorem Expr.components_located (ctx : Context) :
    ∀ es : List Expr, Expr.components (Expr.locatedRow ctx es) = Expr.components es
  | [] => rfl
  | e :: es => by
    rw [Expr.locatedRow, Expr.components, Expr.components, Expr.component_located ctx e,
      Expr.components_located ctx es]

end

theorem Component.ofOption_map {α β : Type} {f : β → Component} {g : α → Component} {h : α → β}
    (hfg : ∀ a, f (h a) = g a) (o : Option α) :
    Component.ofOption f (o.map h) = Component.ofOption g o := by
  cases o with
  | none => rfl
  | some a => exact hfg a

mutual

theorem Stmt.component_located (ctx : Context) :
    ∀ st : Stmt, (st.located ctx).component = st.component
  | .expression value => by
    rw [Stmt.located, Stmt.component, Stmt.component, Expr.component_located]
  | .print value => by
    rw [Stmt.located, Stmt.component, Stmt.component, Expr.component_located]
  | .var name initializer => by
    rw [Stmt.located, Stmt.component, Stmt.component,
      Component.ofOption_map (Expr.component_located _)]
  | .block body => by
    rw [Stmt.located, Stmt.component, Stmt.component, Stmt.components_located _ body]
  | .branch condition yes no => by
    rw [Stmt.located, Stmt.component, Stmt.component, Expr.component_located,
      Stmt.component_located _ yes, Stmt.optionComponent_located _ no]
  | .loop condition body => by
    rw [Stmt.located, Stmt.component, Stmt.component, Expr.component_located,
      Stmt.component_located _ body]
  | .forLoop initializer condition increment body => by
    rw [Stmt.located, Stmt.component, Stmt.component, Stmt.optionComponent_located _ initializer,
      Component.ofOption_map (Expr.component_located _),
      Component.ofOption_map (Expr.component_located _), Stmt.component_located _ body]
  | .function f => by
    rw [Stmt.located, Stmt.component, Stmt.component, FunDecl.component_located _ f]
  | .return keyword value => by
    rw [Stmt.located, Stmt.component, Stmt.component,
      Component.ofOption_map (Expr.component_located _)]
  | .class name superclass methods => by
    rw [Stmt.located, Stmt.component, Stmt.component,
      Component.ofOption_map (Reference.component_located _), FunDecl.components_located _ methods]

theorem Stmt.optionComponent_located (ctx : Context) :
    ∀ o : Option Stmt, Stmt.optionComponent (Stmt.locatedOption ctx o) = Stmt.optionComponent o
  | none => rfl
  | some st => Stmt.component_located ctx st

theorem Stmt.components_located (ctx : Context) :
    ∀ body : List Stmt, Stmt.components (Stmt.locatedRow ctx body) = Stmt.components body
  | [] => rfl
  | st :: rest => by
    rw [Stmt.locatedRow, Stmt.components, Stmt.components, Stmt.component_located ctx st,
      Stmt.components_located _ rest]

theorem FunDecl.component_located (ctx : Context) :
    ∀ f : FunDecl, (f.located ctx).component = f.component
  | .mk name parameters body => by
    rw [FunDecl.located, FunDecl.component, FunDecl.component, Stmt.component_located _ body]

theorem FunDecl.components_located (ctx : Context) :
    ∀ methods : List FunDecl,
      FunDecl.components (FunDecl.locatedRow ctx methods) = FunDecl.components methods
  | [] => rfl
  | f :: rest => by
    rw [FunDecl.locatedRow, FunDecl.components, FunDecl.components, FunDecl.component_located ctx f,
      FunDecl.components_located ctx rest]

end

namespace Analysis

variable {α : Type}

theorem result_of_parse {parser : List Token → Token → Parsed α} {source : String} {a : α}
    (h : (parse parser source).result = some a) :
    (parser (Lox.scan source).tokens (Lox.scan source).finish).result = .ok a := by
  rw [parse] at h
  split at h
  · rename_i hresult
    rw [hresult, Option.some.inj h]
  · cases h
  · cases h

/-- Resolving replaces the result only if the resolver returns one. -/
theorem result_of_resolveClean {resolver : α → Resolved α} {a : Analysis α} {result : α}
    (h : (a.resolveClean resolver).result = some result) :
    a.result = some result ∨
      ∃ parsed, a.result = some parsed ∧ (resolver parsed).result = some result := by
  rw [resolveClean] at h
  split_ifs at h
  · exact .inl h
  · rw [resolve] at h
    split at h
    · exact .inl h
    · rename_i parsed hparsed
      dsimp only at h
      split at h
      · rename_i resolved hresolved
        exact .inr ⟨parsed, hparsed, hresolved.trans h⟩
      · exact .inl h

theorem scan_parse (parser : List Token → Token → Parsed α) (source : String) :
    (parse parser source).scan = Lox.scan source := by
  rw [parse]
  split <;> rfl

theorem scan_resolveClean (resolver : α → Resolved α) (a : Analysis α) :
    (a.resolveClean resolver).scan = a.scan := by
  rw [resolveClean, resolve]
  split_ifs
  · rfl
  · split
    · rfl
    · dsimp only
      split <;> rfl

end Analysis

theorem scan_compile (nesting : Nat) (source : String) :
    (compile nesting source).scan = scan source :=
  (Analysis.scan_resolveClean _ _).trans (Analysis.scan_parse _ _)

/-- What a text is compiled to shows what it was parsed to, if there is anything at all. -/
theorem components_compile (nesting : Nat) (source : String) :
    (compile nesting source).program = [] ∨
      ∃ body, (parseProgram nesting (scan source).tokens (scan source).finish).result = .ok body ∧
        Stmt.components (compile nesting source).program = Stmt.components body := by
  rw [Analysis.program]
  cases hcompile : (compile nesting source).result with
  | none => exact .inl rfl
  | some program =>
    right
    rcases Analysis.result_of_resolveClean hcompile with hparsed | ⟨body, hparsed, hresolved⟩
    · exact ⟨program, Analysis.result_of_parse hparsed, rfl⟩
    · have hlocated := resolveProgram_of_some hresolved
      rw [hlocated] at hresolved
      obtain rfl := Option.some.inj hresolved
      exact ⟨body, Analysis.result_of_parse hparsed, Stmt.components_located [] body⟩

end Lox
