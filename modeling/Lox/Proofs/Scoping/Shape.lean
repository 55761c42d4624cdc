import Lox.Proofs.Scoping.Mentions
import Lox.Proofs.Scoping.Names

/-!
# What resolving names relies on

Whether distances can be right depends on little of what the grammar asks for. Names have to be told
apart from `this` and `super`, a body may not be a declaration, since it would declare its name in a
scope that is not its own, and outside of a function there may be no returns. A tree of that shape
need not be without errors in other respects: the parser builds it also from a text about which it
has complained.
-/

namespace Lox

/-! ## Shapes -/

/-- An expression in which every name is spelled as its place asks for. -/
inductive Expr.Shaped : Expr → Prop
  | literal {value : Literal} : Shaped (.literal value)
  | group {inner : Expr} : inner.Shaped → Shaped (.group inner)
  | unary {operator : Token} {operand : Expr} : operand.Shaped → Shaped (.unary operator operand)
  | binary {left : Expr} {operator : Token} {right : Expr} :
      left.Shaped → right.Shaped → Shaped (.binary left operator right)
  | logical {left : Expr} {operator : Token} {right : Expr} :
      left.Shaped → right.Shaped → Shaped (.logical left operator right)
  | var {r : Reference} : Ordinary r.name.lexeme → Shaped (.var r)
  | property {object : Expr} {name : Token} : object.Shaped → Shaped (.property object name)
  | assign {r : Reference} {value : Expr} :
      Ordinary r.name.lexeme → value.Shaped → Shaped (.assign r value)
  | setProperty {object : Expr} {name : Token} {value : Expr} :
      object.Shaped → value.Shaped → Shaped (.setProperty object name value)
  | call {callee : Expr} {paren : Token} {arguments : List Expr} :
      callee.Shaped → (∀ argument ∈ arguments, argument.Shaped) →
      Shaped (.call callee paren arguments)
  | self {r : Reference} : r.name.lexeme = "this" → Shaped (.self r)
  | inherited {r : Reference} {method : Token} :
      r.name.lexeme = "super" → Shaped (.inherited r method)

mutual

/-- A statement that declares nothing but ordinary names, and those only where there is a scope for
them. Inside of a function there may be returns. -/
inductive Stmt.Shaped : Bool → Stmt → Prop
  | expression {inside : Bool} {value : Expr} :
      value.Shaped → Stmt.Shaped inside (.expression value)
  | print {inside : Bool} {value : Expr} : value.Shaped → Stmt.Shaped inside (.print value)
  | var {inside : Bool} {name : Token} {initializer : Option Expr} :
      Ordinary name.lexeme → (∀ e ∈ initializer, e.Shaped) →
      Stmt.Shaped inside (.var name initializer)
  | block {inside : Bool} {body : List Stmt} :
      (∀ st ∈ body, st.Shaped inside) → Stmt.Shaped inside (.block body)
  | branch {inside : Bool} {condition : Expr} {yes : Stmt} {no : Option Stmt} :
      condition.Shaped → yes.Shaped inside → yes.declared? = none →
      (∀ st ∈ no, st.Shaped inside) → (∀ st ∈ no, st.declared? = none) →
      Stmt.Shaped inside (.branch condition yes no)
  | loop {inside : Bool} {condition : Expr} {body : Stmt} :
      condition.Shaped → body.Shaped inside → body.declared? = none →
      Stmt.Shaped inside (.loop condition body)
  | forLoop {inside : Bool} {initializer : Option Stmt} {condition increment : Option Expr}
      {body : Stmt} :
      (∀ st ∈ initializer, st.Shaped inside) → (∀ e ∈ condition, e.Shaped) →
      (∀ e ∈ increment, e.Shaped) → body.Shaped inside → body.declared? = none →
      Stmt.Shaped inside (.forLoop initializer condition increment body)
  | function {inside : Bool} {f : FunDecl} :
      Ordinary f.name.lexeme → f.Shaped → Stmt.Shaped inside (.function f)
  | return {keyword : Token} {value : Option Expr} :
      (∀ e ∈ value, e.Shaped) → Stmt.Shaped true (.return keyword value)
  | class {inside : Bool} {name : Token} {superclass : Option Reference} {methods : List FunDecl} :
      Ordinary name.lexeme → (∀ r ∈ superclass, Ordinary r.name.lexeme) →
      (∀ f ∈ methods, f.Shaped) → Stmt.Shaped inside (.class name superclass methods)

/-- A function or a method, apart from its own name. -/
inductive FunDecl.Shaped : FunDecl → Prop
  | mk {name : Token} {parameters : List Token} {body : Stmt} :
      (∀ p ∈ parameters, Ordinary p.lexeme) → body.Shaped true → body.declared? = none →
      FunDecl.Shaped (.mk name parameters body)

end

/-- A statement that is no declaration declares nothing, not even in its branches. -/
theorem Stmt.declares_eq_nil {inside : Bool} : ∀ st : Stmt, st.Shaped inside →
    st.declared? = none → st.declares = []
  | .expression _, _, _ | .print _, _, _ | .block _, _, _ | .forLoop _ _ _ _, _, _ => rfl
  | .return _ _, _, _ => rfl
  | .var _ _, _, h | .function _, _, h | .class _ _ _, _, h => by cases h
  | .loop _ body, h, _ => by
    cases h with
    | loop _ hbody hplain => exact Stmt.declares_eq_nil body hbody hplain
  | .branch _ yes none, h, _ => by
    cases h with
    | branch _ hyes hplain _ _ =>
      rw [declares, Stmt.declares_eq_nil yes hyes hplain]
      rfl
  | .branch _ yes (some no), h, _ => by
    cases h with
    | branch _ hyes hplain hno hplain' =>
      rw [declares, Stmt.declares_eq_nil yes hyes hplain]
      exact Stmt.declares_eq_nil no (hno no rfl) (hplain' no rfl)

theorem Stmt.Shaped.ordinary_declares {inside : Bool} {st : Stmt} (h : st.Shaped inside) :
    ∀ x ∈ st.declares, Ordinary x := by
  by_cases hplain : st.declared? = none
  · rw [Stmt.declares_eq_nil st h hplain]
    exact List.forall_mem_nil _
  · cases h with
    | var hname _ | function hname _ | «class» hname _ _ =>
      exact List.forall_mem_singleton.mpr hname
    | _ => exact absurd rfl hplain

/-- Behind a statement that declares nothing. -/
theorem Stmt.Shaped.behind_eq {inside : Bool} {st : Stmt} (h : st.Shaped inside)
    (hplain : st.declared? = none) (ctx : Context) : ctx.behind st = ctx := by
  rw [Context.behind, Stmt.declares_eq_nil st h hplain]
  rfl

/-! ## Trees of the grammar -/

namespace Scoping

/-- All tokens that a tree holds are genuine. -/
def Genuine (glyphs : List Glyph) : Prop := ∀ t, Glyph.token t ∈ glyphs → t.Genuine

@[simp] theorem genuine_nil : Genuine [] := fun _ h ↦ by cases h

@[simp] theorem genuine_cons {g : Glyph} {glyphs : List Glyph} :
    Genuine (g :: glyphs) ↔ (∀ t, g = .token t → t.Genuine) ∧ Genuine glyphs := by
  simp only [Genuine, List.mem_cons, or_imp, forall_and, eq_comm]

@[simp] theorem genuine_append {front back : List Glyph} :
    Genuine (front ++ back) ↔ Genuine front ∧ Genuine back := by
  simp only [Genuine, List.mem_append, or_imp, forall_and]

theorem genuine_commaSeparated {items : List (List Glyph)} :
    Genuine (Glyph.commaSeparated items) ↔ ∀ item ∈ items, Genuine item := by
  induction items with
  | nil => simp [Glyph.commaSeparated]
  | cons item items ih =>
    cases items with
    | nil => simp [Glyph.commaSeparated]
    | cons next items =>
      rw [Glyph.commaSeparated_cons item (List.cons_ne_nil _ _), genuine_append, genuine_cons, ih]
      simp

theorem genuine_spellingAfter {announcement : List Glyph} {o : Option Expr}
    (h : Genuine (Expr.spellingAfter announcement o)) : ∀ e ∈ o, Genuine e.spelling := by
  rintro e ⟨⟩
  exact (genuine_append.mp h).2

theorem genuine_spellingAfter_statement {announcement otherwise : List Glyph} {o : Option Stmt}
    (h : Genuine (Stmt.spellingAfter announcement otherwise o)) :
    ∀ st ∈ o, Genuine st.spelling := by
  rintro st ⟨⟩
  rw [Stmt.spellingAfter, genuine_append] at h
  exact h.2

end Scoping

open Scoping

/-- An expression of the grammar, if its tokens are genuine. -/
theorem Expr.WellFormed.shaped {e : Expr} (h : e.WellFormed) (hgenuine : Genuine e.spelling) :
    e.Shaped := by
  induction h with
  | literal => exact .literal
  | group _ ih =>
    simp only [spelling, List.cons_append, genuine_cons, genuine_append] at hgenuine
    exact .group (ih hgenuine.2.1)
  | unary _ _ _ ih =>
    simp only [spelling, genuine_cons] at hgenuine
    exact .unary (ih hgenuine.2)
  | binary _ _ _ _ _ _ ihLeft ihRight =>
    simp only [spelling, genuine_append, genuine_cons] at hgenuine
    exact .binary (ihLeft hgenuine.1) (ihRight hgenuine.2.2)
  | logical _ _ _ _ _ _ ihLeft ihRight =>
    simp only [spelling, genuine_append, genuine_cons] at hgenuine
    exact .logical (ihLeft hgenuine.1) (ihRight hgenuine.2.2)
  | @var name hname =>
    simp only [spelling, genuine_cons] at hgenuine
    exact .var ((hgenuine.1 name rfl).ordinary hname)
  | property _ _ _ ih =>
    simp only [spelling, genuine_append] at hgenuine
    exact .property (ih hgenuine.1)
  | @assign name _ hname _ ih =>
    simp only [spelling, genuine_cons] at hgenuine
    exact .assign ((hgenuine.1 name rfl).ordinary hname) (ih hgenuine.2.2)
  | setProperty _ _ _ _ ihObject ihValue =>
    simp only [spelling, genuine_append, genuine_cons] at hgenuine
    exact .setProperty (ihObject hgenuine.1) (ihValue hgenuine.2.2.2.2)
  | call _ _ _ _ _ ihCallee ihArguments =>
    simp only [spelling, List.append_assoc, List.cons_append, genuine_append, genuine_cons,
      genuine_commaSeparated, spellings_eq_map, List.forall_mem_map] at hgenuine
    exact .call (ihCallee hgenuine.1) fun e he ↦ ihArguments e he (hgenuine.2.2.1 e he)
  | @self keyword hkeyword =>
    simp only [spelling, genuine_cons] at hgenuine
    exact .self ((hgenuine.1 keyword rfl).self hkeyword)
  | @inherited keyword _ hkeyword _ =>
    simp only [spelling, genuine_cons] at hgenuine
    exact .inherited ((hgenuine.1 keyword rfl).inherited hkeyword)

/-- An expression that may be absent. -/
theorem Expr.shaped_of_spellingAfter {announcement : List Glyph} {o : Option Expr}
    (h : ∀ e ∈ o, e.WellFormed) (hgenuine : Genuine (Expr.spellingAfter announcement o)) :
    ∀ e ∈ o, e.Shaped := fun e he ↦ (h e he).shaped (genuine_spellingAfter hgenuine e he)

/-- The function of which the grammar admits the head and the body. -/
theorem FunDecl.shaped_of_body {f : FunDecl} (hhead : f.HeadWellFormed)
    (hplain : f.body.isDeclaration = false) (hgenuine : Genuine f.spelling)
    (hbody : Genuine f.body.spelling → f.body.Shaped true) :
    Ordinary f.name.lexeme ∧ f.Shaped := by
  obtain ⟨name, parameters, body⟩ := f
  simp only [spelling, List.cons_append, genuine_cons, genuine_append, genuine_commaSeparated,
    List.forall_mem_map] at hgenuine
  obtain ⟨hname, -, hparameters, -, hgenuine⟩ := hgenuine
  exact ⟨(hname name rfl).ordinary hhead.name, .mk
    (fun p hp ↦ ((hparameters p hp).1 p rfl).ordinary (hhead.parameters p hp)) (hbody hgenuine)
    (Stmt.declared?_eq_none_iff.mpr hplain)⟩

/-- A statement of the grammar, if its tokens are genuine. -/
theorem Stmt.WellFormed.shaped {inside : Bool} {st : Stmt} (h : st.WellFormed inside)
    (hgenuine : Genuine st.spelling) : st.Shaped inside := by
  induction h with
  | expression hvalue =>
    rw [spelling, genuine_append] at hgenuine
    exact .expression (hvalue.shaped hgenuine.1)
  | print hvalue =>
    rw [spelling, List.cons_append, genuine_cons, genuine_append] at hgenuine
    exact .print (hvalue.shaped hgenuine.2.1)
  | @var _ name _ hname hinitializer =>
    simp only [spelling, List.cons_append, genuine_cons, genuine_append] at hgenuine
    exact .var ((hgenuine.2.1 name rfl).ordinary hname)
      (Expr.shaped_of_spellingAfter hinitializer hgenuine.2.2.1)
  | block _ ih =>
    rw [spelling, List.cons_append, genuine_cons, genuine_append, spellings_eq_flatten]
      at hgenuine
    exact .block fun st hst ↦ ih st hst fun t ht ↦
      hgenuine.2.1 t (List.mem_flatten.mpr ⟨_, List.mem_map_of_mem hst, ht⟩)
  | branch hcondition _ hplain _ hplain' _ ihYes ihNo =>
    simp only [spelling, List.cons_append, genuine_cons, genuine_append] at hgenuine
    obtain ⟨-, -, ⟨hgenuine, -, hgenuineYes⟩, hgenuineNo⟩ := hgenuine
    exact .branch (hcondition.shaped hgenuine) (ihYes hgenuineYes)
      (declared?_eq_none_iff.mpr hplain)
      (fun st hst ↦ ihNo st hst (genuine_spellingAfter_statement hgenuineNo st hst))
      fun st hst ↦ declared?_eq_none_iff.mpr (hplain' st hst)
  | loop hcondition _ hplain ih =>
    simp only [spelling, List.cons_append, genuine_cons, genuine_append] at hgenuine
    exact .loop (hcondition.shaped hgenuine.2.2.1) (ih hgenuine.2.2.2.2)
      (declared?_eq_none_iff.mpr hplain)
  | forLoop _ _ hcondition hincrement _ hplain ihInitializer ihBody =>
    simp only [spelling, List.cons_append, List.append_assoc, genuine_cons, genuine_append]
      at hgenuine
    obtain ⟨-, -, hgenuineInitializer, hgenuineCondition, -, hgenuineIncrement, -, hgenuineBody⟩ :=
      hgenuine
    exact .forLoop
      (fun st hst ↦ ihInitializer st hst
        (genuine_spellingAfter_statement hgenuineInitializer st hst))
      (Expr.shaped_of_spellingAfter hcondition hgenuineCondition)
      (Expr.shaped_of_spellingAfter hincrement hgenuineIncrement) (ihBody hgenuineBody)
      (declared?_eq_none_iff.mpr hplain)
  | function hhead _ hplain ih =>
    simp only [spelling, genuine_cons] at hgenuine
    obtain ⟨hname, hf⟩ := FunDecl.shaped_of_body hhead hplain hgenuine.2 ih
    exact .function hname hf
  | «return» _ hvalue =>
    simp only [spelling, List.cons_append, genuine_cons, genuine_append] at hgenuine
    exact .return (Expr.shaped_of_spellingAfter hvalue hgenuine.2.1)
  | @«class» _ name _ _ hname hsuperclass hheads _ hplain ih =>
    simp only [spelling, List.cons_append, genuine_cons, genuine_append] at hgenuine
    obtain ⟨-, hgenuineName, ⟨hgenuineParent, -, hgenuineMethods⟩, -⟩ := hgenuine
    rw [FunDecl.spellings_eq_flatten] at hgenuineMethods
    refine .class ((hgenuineName name rfl).ordinary hname) (fun r hr ↦ ?_) fun f hf ↦ ?_
    · obtain rfl := hr
      refine (hgenuineParent r.name ?_).ordinary (hsuperclass r rfl).1
      exact List.mem_cons_of_mem _ List.mem_cons_self
    · exact (FunDecl.shaped_of_body (hheads f hf) (hplain f hf) (fun t ht ↦ hgenuineMethods t
        (List.mem_flatten.mpr ⟨_, List.mem_map_of_mem hf, ht⟩)) (ih f hf)).2

end Lox
