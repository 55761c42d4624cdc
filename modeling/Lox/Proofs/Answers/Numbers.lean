import Lox.Proofs.Outlines.Components
import Lox.Proofs.Outlines.Trees
import Lox.Proofs.Syntax.Drawn

/-!
# The numbers in a document

A document holds numbers wherever it shows a constant. The outline of a tree holds only those that
the tokens of the tree denote.
-/

namespace Lox

/-! ## Documents -/

namespace Document

variable {N : Float → Prop}

/-- Every number that occurs in a document has a property. -/
def Numbered (N : Float → Prop) (d : Document) : Prop := ∀ x, (number x).OccursIn d → N x

@[simp] theorem numbered_null : null.Numbered N := nofun

@[simp] theorem numbered_bool {b : Bool} : (bool b).Numbered N := nofun

@[simp] theorem numbered_count {n : Int} : (count n).Numbered N := nofun

@[simp] theorem numbered_text {s : String} : (text s).Numbered N := nofun

@[simp] theorem numbered_number {x : Float} : (number x).Numbered N ↔ N x := by
  refine ⟨fun h ↦ h x .whole, fun h y hy ↦ ?_⟩
  cases hy
  exact h

@[simp] theorem numbered_list {items : List Document} :
    (list items).Numbered N ↔ ∀ d ∈ items, d.Numbered N := by
  refine ⟨fun h d hd x hx ↦ h x (.item hd hx), fun h x hx ↦ ?_⟩
  cases hx with
  | item hd hx => exact h _ hd x hx

@[simp] theorem numbered_record {fields : List (String × Document)} :
    (record fields).Numbered N ↔ ∀ f ∈ fields, f.2.Numbered N := by
  refine ⟨fun h f hf x hx ↦ h x (.field hf hx), fun h x hx ↦ ?_⟩
  cases hx with
  | field hf hx => exact h _ hf x hx

theorem numbered_ofOption {α : Type} {f : α → Document} {o : Option α}
    (h : ∀ a, (f a).Numbered N) : (ofOption f o).Numbered N := by
  cases o with
  | none => exact numbered_null
  | some a => exact h a

end Document

/-! ## Components -/

/-- Every number in a component has a property. -/
inductive Component.Numbered (N : Float → Prop) : Component → Prop
  | leaf {value : Literal} : (∀ x, value = .number x → N x) → Numbered N (.leaf value)
  | token {kind : Kind} {lexeme : String} {line : Int} : Numbered N (.token kind lexeme line)
  | row {items : List Component} : (∀ c ∈ items, c.Numbered N) → Numbered N (.row items)
  | node {name : String} {fields : List (String × Component)} :
      (∀ f ∈ fields, f.2.Numbered N) → Numbered N (.node name fields)

namespace Component

variable {N : Float → Prop}

theorem numbered_document {value : Literal} :
    value.document.Numbered N ↔ ∀ x, value = .number x → N x := by
  cases value with
  | nil | bool _ | string _ => exact iff_of_true nofun nofun
  | number x => simp [Literal.document]

theorem Numbered.outline {c : Component} (h : c.Numbered N) (levels : Nat) :
    (c.outline levels).Numbered N := by
  induction levels generalizing c with
  | zero => simp [Component.outline, Document.truncated]
  | succ levels ih =>
    cases h with
    | leaf h => exact numbered_document.mpr h
    | token => simp [Component.outline, Token.document]
    | row h =>
      rw [Component.outline, Document.numbered_list]
      exact List.forall_mem_map.mpr fun c hc ↦ ih (h c hc)
    | node h =>
      rw [Component.outline, Outline.node, Document.numbered_record]
      refine List.forall_mem_cons.mpr ⟨Document.numbered_text, ?_⟩
      exact List.forall_mem_map.mpr fun f hf ↦ ih (h f hf)

theorem Numbered.ofOption {α : Type} {f : α → Component} {o : Option α}
    (h : ∀ a ∈ o, (f a).Numbered N) : (Component.ofOption f o).Numbered N := by
  cases o with
  | none => exact .leaf nofun
  | some a => exact h a rfl

@[simp] theorem numbered_token {t : Token} : t.component.Numbered N := .token

@[simp] theorem numbered_row {items : List Component} :
    (row items).Numbered N ↔ ∀ c ∈ items, c.Numbered N :=
  ⟨fun | .row h => h, .row⟩

@[simp] theorem numbered_node {name : String} {fields : List (String × Component)} :
    (node name fields).Numbered N ↔ ∀ f ∈ fields, f.2.Numbered N :=
  ⟨fun | .node h => h, .node⟩

end Component

/-! ## Trees -/

section

variable {T : Token → Prop} {N : Float → Prop}

theorem Expr.Drawn.numbered {e : Expr} (hN : ∀ t x, T t → t.Denotes (.number x) → N x)
    (h : e.Drawn T) : e.component.Numbered N := by
  induction h with
  | literal ht hdenotes =>
    refine .node (List.forall_mem_singleton.mpr (.leaf ?_))
    rintro x rfl
    exact hN _ x ht hdenotes
  | _ => simp_all [Expr.component, Expr.components_eq_map, Reference.component]

theorem Expr.Drawn.numbered_option {o : Option Expr}
    (hN : ∀ t x, T t → t.Denotes (.number x) → N x) (h : ∀ e ∈ o, e.Drawn T) :
    (Component.ofOption Expr.component o).Numbered N :=
  .ofOption fun e he ↦ (h e he).numbered hN

mutual

theorem Stmt.Drawn.numbered (hN : ∀ t x, T t → t.Denotes (.number x) → N x) {st : Stmt} :
    st.Drawn T → st.component.Numbered N
  | .expression hvalue | .print hvalue => by
    simpa [Stmt.component] using hvalue.numbered hN
  | .var _ _ hinitializer => by
    simpa [Stmt.component] using Expr.Drawn.numbered_option hN hinitializer
  | .block hbody => by
    simpa [Stmt.component, Stmt.components_eq_map] using
      fun st hst ↦ Stmt.Drawn.numbered hN (hbody st hst)
  | .branch hcondition hyes _ hno _ => by
    have hno : (Component.ofOption Stmt.component _).Numbered N :=
      .ofOption fun st hst ↦ Stmt.Drawn.numbered hN (hno st hst)
    simp [Stmt.component, Stmt.optionComponent_eq, hcondition.numbered hN,
      Stmt.Drawn.numbered hN hyes, hno]
  | .loop hcondition hbody _ => by
    simp [Stmt.component, hcondition.numbered hN, Stmt.Drawn.numbered hN hbody]
  | .forLoop hinitializer hcondition hincrement hbody _ => by
    have hinitializer : (Component.ofOption Stmt.component _).Numbered N :=
      .ofOption fun st hst ↦ Stmt.Drawn.numbered hN (hinitializer st hst)
    simp [Stmt.component, Stmt.optionComponent_eq, hinitializer, Stmt.Drawn.numbered hN hbody,
      Expr.Drawn.numbered_option hN hcondition, Expr.Drawn.numbered_option hN hincrement]
  | .function hf => FunDecl.Drawn.numbered hN hf
  | .return _ _ hvalue => by
    simpa [Stmt.component] using Expr.Drawn.numbered_option hN hvalue
  | .class _ _ _ hmethods => by
    have hsuperclass : ∀ o, (Component.ofOption Reference.component o).Numbered N := fun _ ↦
      .ofOption fun r _ ↦ by simp [Reference.component]
    simpa [Stmt.component, FunDecl.components_eq_map, hsuperclass] using
      fun f hf ↦ FunDecl.Drawn.numbered hN (hmethods f hf)

theorem FunDecl.Drawn.numbered (hN : ∀ t x, T t → t.Denotes (.number x) → N x) {f : FunDecl} :
    f.Drawn T → f.component.Numbered N
  | .mk _ _ _ hbody _ => by
    simpa [FunDecl.component] using Stmt.Drawn.numbered hN hbody

end

end

end Lox
