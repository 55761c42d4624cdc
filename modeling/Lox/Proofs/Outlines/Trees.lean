import Lox.Proofs.Outlines.Components

/-!
# Outlines of syntax trees

The outline of a tree shows the components that the tree has, whatever the number of levels is.
-/

namespace Lox

/-! ## The components of a tree -/

def Token.component (t : Token) : Component := .token t.kind t.lexeme t.line

def Reference.component (r : Reference) : Component :=
  .node "VariableExpression" [("name", r.name.component)]

/-- A part that may be absent. -/
def Component.ofOption {α : Type} (f : α → Component) : Option α → Component
  | none => .leaf .nil
  | some a => f a

mutual

def Expr.component : Expr → Component
  | .literal value => .node "LiteralExpression" [("value", .leaf value)]
  | .group inner => .node "GroupingExpression" [("expression", inner.component)]
  | .unary operator operand =>
    .node "UnaryExpression" [("operator", operator.component), ("operand", operand.component)]
  | .binary left operator right =>
    .node "BinaryExpression" [("left", left.component), ("operator", operator.component),
      ("right", right.component)]
  | .logical left operator right =>
    .node "LogicalExpression" [("left", left.component), ("operator", operator.component),
      ("right", right.component)]
  | .var target => target.component
  | .property object name =>
    .node "PropertyExpression" [("object", object.component), ("name", name.component)]
  | .assign target value =>
    .node "AssignExpression" [("name", target.name.component), ("target", target.component),
      ("value", value.component)]
  | .setProperty object name value =>
    .node "AssignExpression" [("name", name.component),
      ("target", .node "PropertyExpression"
        [("object", object.component), ("name", name.component)]),
      ("value", value.component)]
  | .call callee paren arguments =>
    .node "CallExpression" [("callee", callee.component), ("paren", paren.component),
      ("arguments", .row (Expr.components arguments))]
  | .self keyword => .node "ThisExpression" [("keyword", keyword.name.component)]
  | .inherited keyword method =>
    .node "SuperExpression" [("keyword", keyword.name.component), ("method", method.component)]

def Expr.components : List Expr → List Component
  | [] => []
  | e :: es => e.component :: Expr.components es

end

mutual

def Stmt.component : Stmt → Component
  | .expression value => .node "ExpressionStatement" [("expression", value.component)]
  | .print value => .node "PrintStatement" [("expression", value.component)]
  | .var name initializer =>
    .node "VarStatement" [("name", name.component),
      ("initializer", .ofOption Expr.component initializer)]
  | .block body => .node "BlockStatement" [("statements", .row (Stmt.components body))]
  | .branch condition yes no =>
    .node "IfStatement" [("condition", condition.component), ("then_branch", yes.component),
      ("else_branch", Stmt.optionComponent no)]
  | .loop condition body =>
    .node "WhileStatement" [("condition", condition.component), ("body", body.component)]
  | .forLoop initializer condition increment body =>
    .node "ForStatement" [("initializer", Stmt.optionComponent initializer),
      ("condition", .ofOption Expr.component condition),
      ("increment", .ofOption Expr.component increment), ("body", body.component)]
  | .function declaration => declaration.component
  | .return keyword value =>
    .node "ReturnStatement" [("keyword", keyword.component),
      ("value", .ofOption Expr.component value)]
  | .class name superclass methods =>
    .node "ClassStatement" [("name", name.component),
      ("superclass", .ofOption Reference.component superclass),
      ("methods", .row (FunDecl.components methods))]

def Stmt.optionComponent : Option Stmt → Component
  | none => .leaf .nil
  | some st => st.component

def Stmt.components : List Stmt → List Component
  | [] => []
  | st :: body => st.component :: Stmt.components body

/-- A method is shown like a function that is declared by itself. -/
def FunDecl.component : FunDecl → Component
  | .mk name parameters body =>
    .node "FunctionStatement" [("name", name.component),
      ("parameters", .row (parameters.map Token.component)), ("body", body.component)]

def FunDecl.components : List FunDecl → List Component
  | [] => []
  | f :: methods => f.component :: FunDecl.components methods

end

theorem Expr.components_eq_map (es : List Expr) :
    Expr.components es = es.map Expr.component := by
  induction es with
  | nil => rfl
  | cons e es ih => rw [components, ih, List.map_cons]

theorem Stmt.components_eq_map (body : List Stmt) :
    Stmt.components body = body.map Stmt.component := by
  induction body with
  | nil => rfl
  | cons st body ih => rw [components, ih, List.map_cons]

theorem FunDecl.components_eq_map (methods : List FunDecl) :
    FunDecl.components methods = methods.map FunDecl.component := by
  induction methods with
  | nil => rfl
  | cons f methods ih => rw [components, ih, List.map_cons]

theorem Stmt.optionComponent_eq (o : Option Stmt) :
    Stmt.optionComponent o = .ofOption Stmt.component o := by
  cases o <;> rfl

/-! ## The outline shows the components -/

section

open Outline

variable {levels : Nat}

theorem leaf_eq_outline (value : Literal) :
    leaf levels value.document = (Component.leaf value).outline levels := by
  cases levels <;> rfl

theorem token_eq_outline (t : Token) : token levels t = t.component.outline levels := by
  cases levels <;> rfl

theorem reference_eq_outline (r : Reference) : reference levels r = r.component.outline levels := by
  cases levels with
  | zero => rfl
  | succ levels => rw [reference, token_eq_outline]; rfl

theorem optional_eq_outline {α : Type} {f : α → Document} {g : α → Component}
    (h : ∀ a, f a = (g a).outline levels) (o : Option α) :
    optional levels f o = (Component.ofOption g o).outline levels := by
  cases o with
  | none => exact leaf_eq_outline .nil
  | some a => exact h a

theorem tokens_eq_outline (ts : List Token) :
    tokens levels ts = (Component.row (ts.map Token.component)).outline levels := by
  cases levels with
  | zero => rfl
  | succ levels =>
    rw [tokens, Component.outline, List.map_map]
    exact congrArg Document.list (List.map_congr_left fun t _ ↦ token_eq_outline t)

/-- A row is shown as its items are. -/
theorem row_eq_outline {α : Type} {f : α → Document} {g : α → Component} (items : List α)
    (h : ∀ a, f a = (g a).outline levels) :
    .list (items.map f) = (Component.row (items.map g)).outline (levels + 1) := by
  rw [Component.outline, List.map_map]
  exact congrArg Document.list (List.map_congr_left fun a _ ↦ h a)

end

theorem Expr.outline_eq (levels : Nat) (e : Expr) :
    e.outline levels = e.component.outline levels := by
  induction levels using Nat.strongRecOn generalizing e with
  | _ levels ih =>
    cases levels with
    | zero => rw [outline, Component.outline]
    | succ levels =>
      have ih₁ : ∀ e : Expr, e.outline levels = e.component.outline levels :=
        ih levels (Nat.lt_succ_self _)
      cases e with
      | literal value => exact congrArg (fun d ↦ Outline.node _ [(_, d)]) (leaf_eq_outline value)
      | call callee paren arguments =>
        rw [component, components_eq_map]
        cases levels with
        | zero =>
          simp only [outline, nodeName, Component.outline, List.map_cons, List.map_nil,
            token_eq_outline]
        | succ inner =>
          have hrow := row_eq_outline arguments (ih inner (by omega))
          simp only [outline, nodeName, Component.outline, List.map_cons, List.map_nil,
            token_eq_outline, ih₁, hrow]
      | setProperty object name value =>
        rw [component]
        cases levels with
        | zero =>
          simp only [outline, nodeName, Component.outline, List.map_cons, List.map_nil,
            token_eq_outline]
        | succ inner =>
          simp only [outline, nodeName, Component.outline, List.map_cons, List.map_nil,
            token_eq_outline, ih₁, ih inner (by omega)]
      | _ =>
        simp only [outline, nodeName, component, Component.outline, List.map_cons, List.map_nil,
          ih₁, token_eq_outline, reference_eq_outline, Reference.component]

theorem Stmt.outline_eq (levels : Nat) (st : Stmt) :
    st.outline levels = st.component.outline levels := by
  induction levels using Nat.strongRecOn generalizing st with
  | _ levels ih =>
    cases levels with
    | zero => rw [outline, Component.outline]
    | succ levels =>
      have ih₁ : ∀ st : Stmt, st.outline levels = st.component.outline levels :=
        ih levels (Nat.lt_succ_self _)
      have hexpression : ∀ o : Option Expr, Outline.optional levels (Expr.outline levels) o
          = (Component.ofOption Expr.component o).outline levels :=
        optional_eq_outline (Expr.outline_eq levels)
      have hstatement : ∀ o : Option Stmt, Outline.optional levels (Stmt.outline levels) o
          = (Component.ofOption Stmt.component o).outline levels := optional_eq_outline ih₁
      cases st with
      | block body =>
        rw [component, components_eq_map]
        cases levels with
        | zero => simp only [outline, nodeName, Component.outline, List.map_cons, List.map_nil]
        | succ inner =>
          have hrow := row_eq_outline body (ih inner (by omega))
          simp only [outline, nodeName, Component.outline, List.map_cons, List.map_nil, hrow]
      | «class» name superclass methods =>
        have hsuperclass : Outline.optional levels (Outline.reference levels) superclass
            = (Component.ofOption Reference.component superclass).outline levels :=
          optional_eq_outline reference_eq_outline superclass
        rw [component, FunDecl.components_eq_map]
        cases levels with
        | zero =>
          simp only [outline, nodeName, Component.outline, List.map_cons, List.map_nil,
            token_eq_outline, hsuperclass]
        | succ inner =>
          have hrow := row_eq_outline methods fun f ↦ ih inner (by omega) (.function f)
          simp only [outline, nodeName, Component.outline, List.map_cons, List.map_nil,
            token_eq_outline, hsuperclass, hrow, component]
      | function declaration =>
        obtain ⟨name, parameters, body⟩ := declaration
        simp only [outline, nodeName, component, FunDecl.component, Component.outline, FunDecl.name,
          FunDecl.parameters, FunDecl.body, List.map_cons, List.map_nil, ih₁, token_eq_outline,
          tokens_eq_outline]
      | _ =>
        simp only [outline, nodeName, component, Component.outline, List.map_cons, List.map_nil,
          ih₁, Expr.outline_eq, optionComponent_eq, hexpression, hstatement, token_eq_outline]

theorem Stmt.outlines_eq (levels : Nat) (body : List Stmt) :
    Stmt.outlines levels body = (Component.row (Stmt.components body)).outline levels := by
  rw [components_eq_map]
  cases levels with
  | zero => rfl
  | succ levels => exact row_eq_outline body (outline_eq levels)

end Lox
