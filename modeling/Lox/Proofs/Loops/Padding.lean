import Lox.Syntax
import Mathlib.Data.List.Forall2
import Mathlib.Data.Option.Basic

/-!
# Code among additional frames

Two programs can do the same although one of them opens scopes that the other one does not have, as
long as nothing is declared in those. All that changes is how far it is from the use of a name to
its declaration. A `Padding` says of the frames around a place which of them are additional, and so
by how much each distance grows.

A statement that declares a name would declare it in the additional frame where that is the
innermost one. So declarations are matched only where the innermost frame is a common one. The
additional frames themselves come from loops: what a for statement does in every round is done in a
scope of its own if the loop is written with `while`.
-/

namespace Lox

/-- Which of the frames around a place are additional, the innermost first. -/
abbrev Padding := List Bool

namespace Padding

/-- The distance to what was at a distance without the additional frames. -/
def lift : Padding → Nat → Nat
  | [], d => d
  | true :: Γ, d => lift Γ d + 1
  | false :: _, 0 => 0
  | false :: Γ, d + 1 => lift Γ d + 1

/-- The innermost frame is a common one. -/
def IsOpen (Γ : Padding) : Prop := Γ.head? ≠ some true

/-- No frame is additional. -/
def IsFlat (Γ : Padding) : Prop := ∀ b ∈ Γ, b = false

variable {Γ : Padding}

theorem isOpen_common (Γ : Padding) : IsOpen (false :: Γ) := by simp [IsOpen]

theorem IsFlat.isOpen (h : Γ.IsFlat) : Γ.IsOpen := fun hhead ↦
  Bool.false_ne_true (h true (List.mem_of_mem_head? hhead)).symm

theorem IsFlat.common (h : Γ.IsFlat) : IsFlat (false :: Γ) := List.forall_mem_cons.mpr ⟨rfl, h⟩

theorem isFlat_replicate (n : Nat) : IsFlat (List.replicate n false) := fun _ h ↦
  List.eq_of_mem_replicate h

theorem IsFlat.lift_eq (h : Γ.IsFlat) (d : Nat) : Γ.lift d = d := by
  induction Γ generalizing d with
  | nil => rfl
  | cons b Γ ih =>
    obtain ⟨rfl, hrest⟩ := List.forall_mem_cons.mp h
    cases d with
    | zero => rfl
    | succ d => rw [lift, ih hrest]

end Padding

/-- The same use of a name among additional frames. -/
def Reference.lifted (Γ : Padding) (r : Reference) : Reference := ⟨r.name, r.distance.map Γ.lift⟩

@[simp] theorem Reference.name_lifted (Γ : Padding) (r : Reference) :
    (r.lifted Γ).name = r.name := rfl

@[simp] theorem Reference.distance_lifted (Γ : Padding) (r : Reference) :
    (r.lifted Γ).distance = r.distance.map Γ.lift := rfl

/-- The same expression among additional frames. The scope of `this` is right inside that of
`super`, and no frame comes between the two. -/
inductive Expr.Lifts (Γ : Padding) : Expr → Expr → Prop
  | literal {value : Literal} : Lifts Γ (.literal value) (.literal value)
  | group {inner inner' : Expr} : inner.Lifts Γ inner' → Lifts Γ (.group inner) (.group inner')
  | unary {operator : Token} {operand operand' : Expr} :
      operand.Lifts Γ operand' → Lifts Γ (.unary operator operand) (.unary operator operand')
  | binary {left left' : Expr} {operator : Token} {right right' : Expr} :
      left.Lifts Γ left' → right.Lifts Γ right' →
      Lifts Γ (.binary left operator right) (.binary left' operator right')
  | logical {left left' : Expr} {operator : Token} {right right' : Expr} :
      left.Lifts Γ left' → right.Lifts Γ right' →
      Lifts Γ (.logical left operator right) (.logical left' operator right')
  | var {r : Reference} : Lifts Γ (.var r) (.var (r.lifted Γ))
  | property {object object' : Expr} {name : Token} :
      object.Lifts Γ object' → Lifts Γ (.property object name) (.property object' name)
  | assign {r : Reference} {value value' : Expr} :
      value.Lifts Γ value' → Lifts Γ (.assign r value) (.assign (r.lifted Γ) value')
  | setProperty {object object' : Expr} {name : Token} {value value' : Expr} :
      object.Lifts Γ object' → value.Lifts Γ value' →
      Lifts Γ (.setProperty object name value) (.setProperty object' name value')
  | call {callee callee' : Expr} {paren : Token} {arguments arguments' : List Expr} :
      callee.Lifts Γ callee' → List.Forall₂ (Expr.Lifts Γ) arguments arguments' →
      Lifts Γ (.call callee paren arguments) (.call callee' paren arguments')
  | self {r : Reference} : Lifts Γ (.self r) (.self (r.lifted Γ))
  | inherited {r : Reference} {method : Token} :
      (∀ d ∈ r.distance, Γ.lift d - 1 = Γ.lift (d - 1)) →
      Lifts Γ (.inherited r method) (.inherited (r.lifted Γ) method)

/-- A for statement written with `while`. The body and the increment share a block of their own, and
where no condition is given the loop goes on. -/
def Stmt.unrolled (initializer : Option Stmt) (condition increment : Option Expr) (body : Stmt) :
    Stmt :=
  .block (initializer.toList ++ [.loop (condition.getD (.literal (.bool true)))
    (.block (body :: increment.toList.map .expression))])

mutual

/-- The same statement among additional frames, where for statements may be written with `while`. -/
inductive Stmt.Pads : Padding → Stmt → Stmt → Prop
  | expression {Γ : Padding} {value value' : Expr} :
      value.Lifts Γ value' → Stmt.Pads Γ (.expression value) (.expression value')
  | print {Γ : Padding} {value value' : Expr} :
      value.Lifts Γ value' → Stmt.Pads Γ (.print value) (.print value')
  | var {Γ : Padding} {name : Token} {initializer initializer' : Option Expr} :
      Γ.IsOpen → Option.Rel (Expr.Lifts Γ) initializer initializer' →
      Stmt.Pads Γ (.var name initializer) (.var name initializer')
  | block {Γ : Padding} {body body' : List Stmt} :
      Stmt.RowPads (false :: Γ) body body' → Stmt.Pads Γ (.block body) (.block body')
  | branch {Γ : Padding} {condition condition' : Expr} {yes yes' : Stmt} {no no' : Option Stmt} :
      condition.Lifts Γ condition' → Stmt.Pads Γ yes yes' → Stmt.OptionPads Γ no no' →
      Stmt.Pads Γ (.branch condition yes no) (.branch condition' yes' no')
  | loop {Γ : Padding} {condition condition' : Expr} {body body' : Stmt} :
      condition.Lifts Γ condition' → Stmt.Pads Γ body body' →
      Stmt.Pads Γ (.loop condition body) (.loop condition' body')
  | forLoop {Γ : Padding} {initializer initializer' : Option Stmt}
      {condition condition' increment increment' : Option Expr} {body body' : Stmt} :
      Stmt.OptionPads (false :: Γ) initializer initializer' →
      Option.Rel (Expr.Lifts (false :: Γ)) condition condition' →
      Option.Rel (Expr.Lifts (false :: Γ)) increment increment' →
      Stmt.Pads (false :: Γ) body body' →
      Stmt.Pads Γ (.forLoop initializer condition increment body)
        (.forLoop initializer' condition' increment' body')
  | unrolled {Γ : Padding} {initializer initializer' : Option Stmt}
      {condition condition' increment increment' : Option Expr} {body body' : Stmt} :
      Stmt.OptionPads (false :: Γ) initializer initializer' →
      Option.Rel (Expr.Lifts (false :: Γ)) condition condition' →
      Option.Rel (Expr.Lifts (true :: false :: Γ)) increment increment' →
      Stmt.Pads (true :: false :: Γ) body body' →
      Stmt.Pads Γ (.forLoop initializer condition increment body)
        (.unrolled initializer' condition' increment' body')
  | function {Γ : Padding} {f f' : FunDecl} :
      Γ.IsOpen → FunDecl.Pads Γ f f' → Stmt.Pads Γ (.function f) (.function f')
  | return {Γ : Padding} {keyword : Token} {value value' : Option Expr} :
      Option.Rel (Expr.Lifts Γ) value value' →
      Stmt.Pads Γ (.return keyword value) (.return keyword value')
  | class {Γ : Padding} {name : Token} {superclass : Option Reference}
      {methods methods' : List FunDecl} :
      Γ.IsOpen → FunDecl.RowPads (false :: false :: Γ) methods methods' →
      Stmt.Pads Γ (.class name superclass methods)
        (.class name (superclass.map (Reference.lifted Γ)) methods')

inductive Stmt.OptionPads : Padding → Option Stmt → Option Stmt → Prop
  | none {Γ : Padding} : Stmt.OptionPads Γ none none
  | some {Γ : Padding} {st st' : Stmt} :
      Stmt.Pads Γ st st' → Stmt.OptionPads Γ (some st) (some st')

inductive Stmt.RowPads : Padding → List Stmt → List Stmt → Prop
  | nil {Γ : Padding} : Stmt.RowPads Γ [] []
  | cons {Γ : Padding} {st st' : Stmt} {rest rest' : List Stmt} :
      Stmt.Pads Γ st st' → Stmt.RowPads Γ rest rest' → Stmt.RowPads Γ (st :: rest) (st' :: rest')

/-- The same function among the frames around it. Its parameters are in a common frame. -/
inductive FunDecl.Pads : Padding → FunDecl → FunDecl → Prop
  | mk {Γ : Padding} {name : Token} {parameters : List Token} {body body' : Stmt} :
      Stmt.Pads (false :: Γ) body body' →
      FunDecl.Pads Γ (.mk name parameters body) (.mk name parameters body')

inductive FunDecl.RowPads : Padding → List FunDecl → List FunDecl → Prop
  | nil {Γ : Padding} : FunDecl.RowPads Γ [] []
  | cons {Γ : Padding} {f f' : FunDecl} {rest rest' : List FunDecl} :
      FunDecl.Pads Γ f f' → FunDecl.RowPads Γ rest rest' →
      FunDecl.RowPads Γ (f :: rest) (f' :: rest')

end

variable {Γ : Padding}

theorem FunDecl.Pads.name_eq {f f' : FunDecl} (h : f.Pads Γ f') : f.name = f'.name := by
  cases h
  rfl

theorem FunDecl.Pads.parameters_eq {f f' : FunDecl} (h : f.Pads Γ f') :
    f.parameters = f'.parameters := by
  cases h
  rfl

theorem FunDecl.Pads.arity_eq {f f' : FunDecl} (h : f.Pads Γ f') : f.arity = f'.arity :=
  congrArg List.length h.parameters_eq

theorem FunDecl.Pads.body {f f' : FunDecl} (h : f.Pads Γ f') :
    f.body.Pads (false :: Γ) f'.body := by
  cases h with
  | mk hbody => exact hbody

theorem FunDecl.RowPads.forall₂ : ∀ {fs fs' : List FunDecl}, FunDecl.RowPads Γ fs fs' →
    List.Forall₂ (FunDecl.Pads Γ) fs fs'
  | [], [], _ => .nil
  | _ :: _, _ :: _, .cons hf hfs => .cons hf hfs.forall₂

/-! ## Code that stays as it is -/

theorem Reference.lifted_flat (h : Γ.IsFlat) (r : Reference) : r.lifted Γ = r := by
  obtain ⟨name, distance⟩ := r
  cases distance with
  | none => rfl
  | some d => rw [Reference.lifted, Option.map_some, h.lift_eq]

mutual

theorem Expr.Lifts.refl (h : Γ.IsFlat) : ∀ e : Expr, e.Lifts Γ e
  | .literal _ => .literal
  | .group inner => .group (Expr.Lifts.refl h inner)
  | .unary _ operand => .unary (Expr.Lifts.refl h operand)
  | .binary left _ right => .binary (Expr.Lifts.refl h left) (Expr.Lifts.refl h right)
  | .logical left _ right => .logical (Expr.Lifts.refl h left) (Expr.Lifts.refl h right)
  | .var r => by
    have hvar : (Expr.var r).Lifts Γ _ := .var
    rwa [r.lifted_flat h] at hvar
  | .property object _ => .property (Expr.Lifts.refl h object)
  | .assign r value => by
    have hassign : (Expr.assign r value).Lifts Γ _ := .assign (Expr.Lifts.refl h value)
    rwa [r.lifted_flat h] at hassign
  | .setProperty object _ value => .setProperty (Expr.Lifts.refl h object) (Expr.Lifts.refl h value)
  | .call callee _ arguments => .call (Expr.Lifts.refl h callee) (Expr.Lifts.refl_row h arguments)
  | .self r => by
    have hself : (Expr.self r).Lifts Γ _ := .self
    rwa [r.lifted_flat h] at hself
  | .inherited r method => by
    have hinherited : (Expr.inherited r method).Lifts Γ _ :=
      .inherited fun d _ ↦ by rw [h.lift_eq, h.lift_eq]
    rwa [r.lifted_flat h] at hinherited

theorem Expr.Lifts.refl_row (h : Γ.IsFlat) : ∀ es : List Expr, List.Forall₂ (Expr.Lifts Γ) es es
  | [] => .nil
  | e :: es => .cons (Expr.Lifts.refl h e) (Expr.Lifts.refl_row h es)

end

theorem Expr.Lifts.refl_option (h : Γ.IsFlat) : ∀ e : Option Expr, Option.Rel (Expr.Lifts Γ) e e
  | none => .none
  | some e => .some (Expr.Lifts.refl h e)

mutual

theorem Stmt.Pads.refl : ∀ {Γ : Padding}, Γ.IsFlat → ∀ st : Stmt, st.Pads Γ st
  | _, h, .expression value => .expression (.refl h value)
  | _, h, .print value => .print (.refl h value)
  | _, h, .var _ initializer => .var h.isOpen (Expr.Lifts.refl_option h initializer)
  | _, h, .block body => .block (Stmt.RowPads.refl h.common body)
  | _, h, .branch condition yes no =>
    .branch (.refl h condition) (Stmt.Pads.refl h yes) (Stmt.OptionPads.refl h no)
  | _, h, .loop condition body => .loop (.refl h condition) (Stmt.Pads.refl h body)
  | _, h, .forLoop initializer condition increment body =>
    .forLoop (Stmt.OptionPads.refl h.common initializer)
      (Expr.Lifts.refl_option h.common condition) (Expr.Lifts.refl_option h.common increment)
      (Stmt.Pads.refl h.common body)
  | _, h, .function f => .function h.isOpen (FunDecl.Pads.refl h f)
  | _, h, .return _ value => .return (Expr.Lifts.refl_option h value)
  | Γ, h, .class name superclass methods => by
    have hlifted : superclass.map (Reference.lifted Γ) = superclass := by
      cases superclass with
      | none => rfl
      | some r => rw [Option.map_some, r.lifted_flat h]
    have hclass : (Stmt.class name superclass methods).Pads Γ _ :=
      .class h.isOpen (FunDecl.RowPads.refl h.common.common methods)
    rwa [hlifted] at hclass

theorem Stmt.OptionPads.refl : ∀ {Γ : Padding}, Γ.IsFlat →
    ∀ st : Option Stmt, Stmt.OptionPads Γ st st
  | _, _, none => .none
  | _, h, some st => .some (Stmt.Pads.refl h st)

theorem Stmt.RowPads.refl : ∀ {Γ : Padding}, Γ.IsFlat → ∀ body : List Stmt, Stmt.RowPads Γ body body
  | _, _, [] => .nil
  | _, h, st :: rest => .cons (Stmt.Pads.refl h st) (Stmt.RowPads.refl h rest)

theorem FunDecl.Pads.refl : ∀ {Γ : Padding}, Γ.IsFlat → ∀ f : FunDecl, f.Pads Γ f
  | _, h, .mk _ _ body => .mk (Stmt.Pads.refl h.common body)

theorem FunDecl.RowPads.refl : ∀ {Γ : Padding}, Γ.IsFlat → ∀ fs : List FunDecl,
    FunDecl.RowPads Γ fs fs
  | _, _, [] => .nil
  | _, h, f :: fs => .cons (FunDecl.Pads.refl h f) (FunDecl.RowPads.refl h fs)

end

end Lox
