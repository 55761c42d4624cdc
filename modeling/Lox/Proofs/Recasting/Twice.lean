import Lox.Proofs.Recasting.Recast

/-!
# Recasting twice and not at all

Recasting a program and recasting it again is recasting it once, and if every line and every slot
stays what it is, so does the program. The same holds of all that it leaves behind.
-/

namespace Lox

/-- First the one recasting, then the other. -/
abbrev Recasting.andThen (ρ σ : Recasting) : Recasting := ⟨σ.line ∘ ρ.line, σ.slot ∘ ρ.slot⟩

/-- Nothing changes. -/
abbrev Recasting.same : Recasting := ⟨id, id⟩

section Tokens

variable (f g : Int → Int)

@[simp] theorem Token.moved_moved (t : Token) : (t.moved f).moved g = t.moved (g ∘ f) := rfl

@[simp] theorem Token.moved_id (t : Token) : t.moved id = t := rfl

theorem Issue.moved_moved (i : Issue) : (i.moved f).moved g = i.moved (g ∘ f) := by
  simp only [moved, Option.map_map]

theorem Issue.moved_id (i : Issue) : i.moved id = i := by
  simp only [moved, Option.map_id_fun, id_eq]

end Tokens

variable (ρ σ : Recasting)

@[simp] theorem Reference.recast_recast (r : Reference) :
    (r.recast ρ).recast σ = r.recast (ρ.andThen σ) := rfl

@[simp] theorem Reference.recast_same (r : Reference) : r.recast .same = r := rfl

/-! ## Trees -/

mutual

theorem Expr.recast_recast : ∀ e : Expr, (e.recast ρ).recast σ = e.recast (ρ.andThen σ)
  | .literal _ => rfl
  | .var _ | .self _ | .inherited _ _ => rfl
  | .group e | .unary _ e | .property e _ | .assign _ e => by
    simp only [recast, recast_recast e, Token.moved_moved, Reference.recast_recast]
  | .binary left _ right | .logical left _ right | .setProperty left _ right => by
    simp only [recast, recast_recast left, recast_recast right, Token.moved_moved]
  | .call callee _ arguments => by
    simp only [recast, recast_recast callee, recastRow_recastRow arguments, Token.moved_moved]

theorem Expr.recastRow_recastRow :
    ∀ es : List Expr, recastRow σ (recastRow ρ es) = recastRow (ρ.andThen σ) es
  | [] => rfl
  | e :: es => by simp only [recastRow, recast_recast e, recastRow_recastRow es]

end

mutual

theorem Expr.recast_same : ∀ e : Expr, e.recast .same = e
  | .literal _ => rfl
  | .var _ | .self _ | .inherited _ _ => rfl
  | .group e | .unary _ e | .property e _ | .assign _ e => by
    simp only [recast, recast_same e, Token.moved_id, Reference.recast_same]
  | .binary left _ right | .logical left _ right | .setProperty left _ right => by
    simp only [recast, recast_same left, recast_same right, Token.moved_id]
  | .call callee _ arguments => by
    simp only [recast, recast_same callee, recastRow_same arguments, Token.moved_id]

theorem Expr.recastRow_same : ∀ es : List Expr, recastRow .same es = es
  | [] => rfl
  | e :: es => by simp only [recastRow, recast_same e, recastRow_same es]

end

theorem Option.map_recast_recast (o : Option Expr) :
    (o.map (Expr.recast ρ)).map (Expr.recast σ) = o.map (Expr.recast (ρ.andThen σ)) := by
  cases o with
  | none => rfl
  | some e => exact congrArg some (Expr.recast_recast ρ σ e)

theorem Option.map_recast_same (o : Option Expr) : o.map (Expr.recast .same) = o := by
  cases o with
  | none => rfl
  | some e => exact congrArg some (Expr.recast_same e)

mutual

theorem Stmt.recast_recast : ∀ st : Stmt, (st.recast ρ).recast σ = st.recast (ρ.andThen σ)
  | .expression e | .print e => by simp only [Stmt.recast, Expr.recast_recast]
  | .var _ o | .return _ o => by
    simp only [Stmt.recast, Option.map_recast_recast, Token.moved_moved]
  | .block body => by simp only [Stmt.recast, Stmt.recastRow_recastRow body]
  | .branch _ yes no => by
    simp only [Stmt.recast, Expr.recast_recast, Stmt.recast_recast yes,
      Stmt.recastOption_recastOption no]
  | .loop _ body => by simp only [Stmt.recast, Expr.recast_recast, Stmt.recast_recast body]
  | .forLoop initializer _ _ body => by
    simp only [Stmt.recast, Stmt.recastOption_recastOption initializer, Option.map_recast_recast,
      Stmt.recast_recast body]
  | .function d => by simp only [Stmt.recast, FunDecl.recast_recast d]
  | .class _ superclass methods => by
    simp only [Stmt.recast, Token.moved_moved, FunDecl.recastRow_recastRow methods]
    cases superclass <;> rfl

theorem Stmt.recastOption_recastOption :
    ∀ o : Option Stmt, Stmt.recastOption σ (Stmt.recastOption ρ o)
      = Stmt.recastOption (ρ.andThen σ) o
  | none => rfl
  | some st => by simp only [Stmt.recastOption, Stmt.recast_recast st]

theorem Stmt.recastRow_recastRow :
    ∀ body : List Stmt, Stmt.recastRow σ (Stmt.recastRow ρ body) = Stmt.recastRow (ρ.andThen σ) body
  | [] => rfl
  | st :: rest => by
    simp only [Stmt.recastRow, Stmt.recast_recast st, Stmt.recastRow_recastRow rest]

theorem FunDecl.recast_recast : ∀ d : FunDecl, (d.recast ρ).recast σ = d.recast (ρ.andThen σ)
  | .mk _ parameters body => by
    simp only [FunDecl.recast, Stmt.recast_recast body, List.map_map, Token.moved_moved]
    rfl

theorem FunDecl.recastRow_recastRow :
    ∀ ds : List FunDecl, FunDecl.recastRow σ (FunDecl.recastRow ρ ds)
      = FunDecl.recastRow (ρ.andThen σ) ds
  | [] => rfl
  | d :: rest => by
    simp only [FunDecl.recastRow, FunDecl.recast_recast d, FunDecl.recastRow_recastRow rest]

end

mutual

theorem Stmt.recast_same : ∀ st : Stmt, st.recast .same = st
  | .expression e | .print e => by simp only [Stmt.recast, Expr.recast_same]
  | .var _ o | .return _ o => by simp only [Stmt.recast, Option.map_recast_same, Token.moved_id]
  | .block body => by simp only [Stmt.recast, Stmt.recastRow_same body]
  | .branch _ yes no => by
    simp only [Stmt.recast, Expr.recast_same, Stmt.recast_same yes, Stmt.recastOption_same no]
  | .loop _ body => by simp only [Stmt.recast, Expr.recast_same, Stmt.recast_same body]
  | .forLoop initializer _ _ body => by
    simp only [Stmt.recast, Stmt.recastOption_same initializer, Option.map_recast_same,
      Stmt.recast_same body]
  | .function d => by simp only [Stmt.recast, FunDecl.recast_same d]
  | .class _ superclass methods => by
    simp only [Stmt.recast, Token.moved_id, FunDecl.recastRow_same methods]
    cases superclass <;> rfl

theorem Stmt.recastOption_same : ∀ o : Option Stmt, Stmt.recastOption .same o = o
  | none => rfl
  | some st => by simp only [Stmt.recastOption, Stmt.recast_same st]

theorem Stmt.recastRow_same : ∀ body : List Stmt, Stmt.recastRow .same body = body
  | [] => rfl
  | st :: rest => by simp only [Stmt.recastRow, Stmt.recast_same st, Stmt.recastRow_same rest]

theorem FunDecl.recast_same : ∀ d : FunDecl, d.recast .same = d
  | .mk _ parameters body => by
    have hparameters : parameters.map (Token.moved id) = parameters := List.map_id parameters
    simp only [FunDecl.recast, Stmt.recast_same body, hparameters, Token.moved_id]

theorem FunDecl.recastRow_same : ∀ ds : List FunDecl, FunDecl.recastRow .same ds = ds
  | [] => rfl
  | d :: rest => by
    simp only [FunDecl.recastRow, FunDecl.recast_same d, FunDecl.recastRow_same rest]

end

/-! ## Values and machines -/

theorem Bindings.map_map {α β γ : Type} (h : α → β) (k : β → γ) (b : Bindings α) :
    (b.map h).map k = b.map (k ∘ h) := by
  simp only [map, List.map_map]
  rfl

theorem Bindings.map_id {α : Type} {h : α → α} (hh : ∀ a, h a = a) (b : Bindings α) :
    b.map h = b := by
  obtain rfl : h = id := funext hh
  exact congrArg Bindings.mk (List.map_id b.entries)

theorem Store.map_map {α β γ : Type} (h : α → β) (k : β → γ) (s : Store α) :
    (s.map h).map k = s.map (k ∘ h) := by
  simp only [map, Array.map_map]
  exact congrArg (fun m ↦ Store.mk (s.records.map m)) (funext fun b ↦ Bindings.map_map h k b)

theorem Store.map_id {α : Type} {h : α → α} (hh : ∀ a, h a = a) (s : Store α) : s.map h = s := by
  have hrecord : (fun b : Bindings α ↦ b.map h) = id := funext fun b ↦ Bindings.map_id hh b
  simp only [map, hrecord, Array.map_id]

mutual

theorem Class.recast_recast : ∀ c : Class, (c.recast ρ).recast σ = c.recast (ρ.andThen σ)
  | ⟨_, _, superclass, methods, _⟩ => by
    simp only [Class.recast, Class.recastOption_recastOption superclass, Bindings.map_map]
    exact congrArg (fun m ↦ Class.mk _ _ _ (methods.map m) _)
      (funext fun d ↦ FunDecl.recast_recast ρ σ d)

theorem Class.recastOption_recastOption :
    ∀ o : Option Class,
      Class.recastOption σ (Class.recastOption ρ o) = Class.recastOption (ρ.andThen σ) o
  | none => rfl
  | some c => by simp only [Class.recastOption, Class.recast_recast c]

end

mutual

theorem recast_same_class : ∀ c : Class, c.recast .same = c
  | ⟨_, _, superclass, methods, _⟩ => by
    simp only [Class.recast, recast_same_superclass superclass, Bindings.map_id FunDecl.recast_same]

theorem recast_same_superclass : ∀ o : Option Class, Class.recastOption .same o = o
  | none => rfl
  | some c => by simp only [Class.recastOption, recast_same_class c]

end

theorem Value.recast_recast (v : Value) : (v.recast ρ).recast σ = v.recast (ρ.andThen σ) := by
  cases v with
  | function c => simp only [recast, Closure.recast, FunDecl.recast_recast]
  | «class» c => simp only [recast, Class.recast_recast]
  | «instance» i => simp only [recast, Instance.recast, Class.recast_recast]
  | _ => rfl

theorem Value.recast_same (v : Value) : v.recast .same = v := by
  cases v with
  | function c => simp only [recast, Closure.recast, FunDecl.recast_same]
  | «class» c => simp only [recast, recast_same_class]
  | «instance» i => simp only [recast, Instance.recast, recast_same_class]
  | _ => rfl

theorem Interrupt.recast_same (i : Interrupt) : i.recast .same = i := by
  cases i with
  | returning v => exact congrArg returning v.recast_same
  | issue i => exact congrArg issue i.moved_id
  | _ => rfl

theorem Interrupt.recast_recast (i : Interrupt) :
    (i.recast ρ).recast σ = i.recast (ρ.andThen σ) := by
  cases i with
  | returning v => exact congrArg returning (v.recast_recast ρ σ)
  | issue i => exact congrArg issue (i.moved_moved ρ.line σ.line)
  | _ => rfl

theorem Machine.recast_recast (M : Machine) :
    (M.recast ρ).recast σ = M.recast (ρ.andThen σ) := by
  have hvalue : Value.recast σ ∘ Value.recast ρ = Value.recast (ρ.andThen σ) :=
    funext fun v ↦ Value.recast_recast ρ σ v
  simp only [recast, Store.map_map, hvalue]

theorem Machine.recast_same (M : Machine) : M.recast .same = M := by
  simp only [recast, Store.map_id Value.recast_same]

end Lox
