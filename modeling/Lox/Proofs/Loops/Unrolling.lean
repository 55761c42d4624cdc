import Lox.Proofs.Loops.Contexts

/-!
# For statements written with while

A for statement can be written as a block with a loop in it. The body and the increment then share a
block of their own, in which nothing is declared, because the body of what was parsed is no
declaration. So whatever a name means stays the same, and only its distance grows, by one for each
of these blocks between the use and the declaration.

The resolver has the same complaints about both forms, in the same order: it looks at the body
before the increment in both of them.
-/

namespace Lox

/-! ## Unrolling -/

mutual

/-- The same statement, with any number of its for statements written with `while`. -/
inductive Stmt.Unrolls : Stmt → Stmt → Prop
  | expression {value : Expr} : Stmt.Unrolls (.expression value) (.expression value)
  | print {value : Expr} : Stmt.Unrolls (.print value) (.print value)
  | var {name : Token} {initializer : Option Expr} :
      Stmt.Unrolls (.var name initializer) (.var name initializer)
  | block {body body' : List Stmt} :
      List.Forall₂ Stmt.Unrolls body body' → Stmt.Unrolls (.block body) (.block body')
  | branch {condition : Expr} {yes yes' : Stmt} {no no' : Option Stmt} :
      Stmt.Unrolls yes yes' → Option.Rel Stmt.Unrolls no no' →
      Stmt.Unrolls (.branch condition yes no) (.branch condition yes' no')
  | loop {condition : Expr} {body body' : Stmt} :
      Stmt.Unrolls body body' → Stmt.Unrolls (.loop condition body) (.loop condition body')
  | forLoop {initializer initializer' : Option Stmt} {condition increment : Option Expr}
      {body body' : Stmt} :
      Option.Rel Stmt.Unrolls initializer initializer' → Stmt.Unrolls body body' →
      Stmt.Unrolls (.forLoop initializer condition increment body)
        (.forLoop initializer' condition increment body')
  | unrolled {initializer initializer' : Option Stmt} {condition increment : Option Expr}
      {body body' : Stmt} :
      Option.Rel Stmt.Unrolls initializer initializer' → Stmt.Unrolls body body' →
      Stmt.Unrolls (.forLoop initializer condition increment body)
        (.unrolled initializer' condition increment body')
  | function {f f' : FunDecl} : FunDecl.Unrolls f f' → Stmt.Unrolls (.function f) (.function f')
  | return {keyword : Token} {value : Option Expr} :
      Stmt.Unrolls (.return keyword value) (.return keyword value)
  | class {name : Token} {superclass : Option Reference} {methods methods' : List FunDecl} :
      List.Forall₂ FunDecl.Unrolls methods methods' →
      Stmt.Unrolls (.class name superclass methods) (.class name superclass methods')

inductive FunDecl.Unrolls : FunDecl → FunDecl → Prop
  | mk {name : Token} {parameters : List Token} {body body' : Stmt} :
      Stmt.Unrolls body body' →
      FunDecl.Unrolls (.mk name parameters body) (.mk name parameters body')

end

/-- A program with any number of its for statements written with `while`. -/
abbrev Stmt.RowUnrolls (program program' : List Stmt) : Prop :=
  List.Forall₂ Stmt.Unrolls program program'

mutual

theorem Stmt.Unrolls.refl : ∀ st : Stmt, st.Unrolls st
  | .expression _ => .expression
  | .print _ => .print
  | .var _ _ => .var
  | .block body => .block (Stmt.Unrolls.refl_row body)
  | .branch _ yes no => .branch (Stmt.Unrolls.refl yes) (Stmt.Unrolls.refl_option no)
  | .loop _ body => .loop (Stmt.Unrolls.refl body)
  | .forLoop initializer _ _ body =>
    .forLoop (Stmt.Unrolls.refl_option initializer) (Stmt.Unrolls.refl body)
  | .function f => .function (FunDecl.Unrolls.refl f)
  | .return _ _ => .return
  | .class _ _ methods => .class (FunDecl.Unrolls.refl_row methods)

theorem Stmt.Unrolls.refl_option : ∀ st : Option Stmt, Option.Rel Stmt.Unrolls st st
  | none => .none
  | some st => .some (Stmt.Unrolls.refl st)

theorem Stmt.Unrolls.refl_row : ∀ body : List Stmt, Stmt.RowUnrolls body body
  | [] => .nil
  | st :: rest => .cons (Stmt.Unrolls.refl st) (Stmt.Unrolls.refl_row rest)

theorem FunDecl.Unrolls.refl : ∀ f : FunDecl, f.Unrolls f
  | .mk _ _ body => .mk (Stmt.Unrolls.refl body)

theorem FunDecl.Unrolls.refl_row : ∀ fs : List FunDecl, List.Forall₂ FunDecl.Unrolls fs fs
  | [] => .nil
  | f :: rest => .cons (FunDecl.Unrolls.refl f) (FunDecl.Unrolls.refl_row rest)

end

/-! ## What unrolling keeps -/

theorem FunDecl.Unrolls.name_eq {f f' : FunDecl} (h : f.Unrolls f') : f'.name = f.name := by
  cases h
  rfl

theorem Stmt.Unrolls.declared?_eq {st st' : Stmt} (h : st.Unrolls st') :
    st'.declared? = st.declared? := by
  cases h with
  | function hf => exact congrArg some hf.name_eq
  | _ => rfl

/-- The other form of a for statement is of the right shape where the statement is. -/
theorem Stmt.Shaped.unrolled {inside : Bool} {initializer : Option Stmt}
    {condition increment : Option Expr} {body : Stmt}
    (hinitializer : ∀ st ∈ initializer, st.Shaped inside) (hcondition : ∀ e ∈ condition, e.Shaped)
    (hincrement : ∀ e ∈ increment, e.Shaped) (hbody : body.Shaped inside) :
    (Stmt.unrolled initializer condition increment body).Shaped inside := by
  have hround : (Stmt.block (body :: increment.toList.map .expression)).Shaped inside := by
    refine .block (List.forall_mem_cons.mpr ⟨hbody, fun st hst ↦ ?_⟩)
    obtain ⟨e, he, rfl⟩ := List.mem_map.mp hst
    exact .expression (hincrement e (Option.mem_toList.mp he))
  have hgoesOn : (condition.getD (.literal (.bool true))).Shaped := by
    cases condition with
    | none => exact .literal
    | some e => exact hcondition e rfl
  refine .block fun st hst ↦ ?_
  rcases List.mem_append.mp hst with hst | hst
  · exact hinitializer st (Option.mem_toList.mp hst)
  · obtain rfl := List.mem_singleton.mp hst
    exact .loop hgoesOn hround rfl

mutual

theorem Stmt.shaped_of_unrolls {inside : Bool} : ∀ (st : Stmt) {st' : Stmt}, st.Unrolls st' →
    st.Shaped inside → st'.Shaped inside
  | .expression _, _, .expression, h | .print _, _, .print, h | .var _ _, _, .var, h => h
  | .return _ _, _, .return, h => h
  | .block body, _, .block hbody, .block h => .block (Stmt.shaped_of_rowUnrolls body hbody h)
  | .branch _ yes no, _, .branch hyes hno, .branch hcondition h hplain h' hplain' => by
    refine .branch hcondition (Stmt.shaped_of_unrolls yes hyes h) (hyes.declared?_eq.trans hplain)
      (Stmt.shaped_of_optionUnrolls no hno h') fun st hst ↦ ?_
    cases hno with
    | none => cases hst
    | some hno =>
      cases hst
      exact hno.declared?_eq.trans (hplain' _ rfl)
  | .loop _ body, _, .loop hbody, .loop hcondition h hplain =>
    .loop hcondition (Stmt.shaped_of_unrolls body hbody h) (hbody.declared?_eq.trans hplain)
  | .forLoop initializer _ _ body, _, .forLoop hinitializer hbody,
      .forLoop h hcondition hincrement h' hplain =>
    .forLoop (Stmt.shaped_of_optionUnrolls initializer hinitializer h) hcondition hincrement
      (Stmt.shaped_of_unrolls body hbody h') (hbody.declared?_eq.trans hplain)
  | .forLoop initializer _ _ body, _, .unrolled hinitializer hbody,
      .forLoop h hcondition hincrement h' _ =>
    .unrolled (Stmt.shaped_of_optionUnrolls initializer hinitializer h) hcondition hincrement
      (Stmt.shaped_of_unrolls body hbody h')
  | .function f, _, .function hf, .function hname h =>
    .function (hf.name_eq ▸ hname) (FunDecl.shaped_of_unrolls f hf h)
  | .class _ _ methods, _, .class hmethods, .class hname hsuperclass h =>
    .class hname hsuperclass (FunDecl.shaped_of_rowUnrolls methods hmethods h)
termination_by structural st => st

theorem Stmt.shaped_of_optionUnrolls {inside : Bool} : ∀ (st : Option Stmt) {st' : Option Stmt},
    Option.Rel Stmt.Unrolls st st' → (∀ s ∈ st, s.Shaped inside) → ∀ s ∈ st', s.Shaped inside
  | none, _, .none, _ => fun _ h ↦ by cases h
  | some st, _, .some hst, h => fun _ h' ↦ by
    cases h'
    exact Stmt.shaped_of_unrolls st hst (h st rfl)
termination_by structural st => st

theorem Stmt.shaped_of_rowUnrolls {inside : Bool} : ∀ (body : List Stmt) {body' : List Stmt},
    Stmt.RowUnrolls body body' → (∀ st ∈ body, st.Shaped inside) → ∀ st ∈ body', st.Shaped inside
  | [], _, .nil, _ => List.forall_mem_nil _
  | st :: rest, _, .cons hst hrest, h =>
    List.forall_mem_cons.mpr ⟨Stmt.shaped_of_unrolls st hst (List.forall_mem_cons.mp h).1,
      Stmt.shaped_of_rowUnrolls rest hrest (List.forall_mem_cons.mp h).2⟩
termination_by structural st => st

theorem FunDecl.shaped_of_unrolls : ∀ (f : FunDecl) {f' : FunDecl}, f.Unrolls f' → f.Shaped →
    f'.Shaped
  | .mk _ _ body, _, .mk hbody, .mk hparameters h hplain =>
    .mk hparameters (Stmt.shaped_of_unrolls body hbody h) (hbody.declared?_eq.trans hplain)
termination_by structural st => st

theorem FunDecl.shaped_of_rowUnrolls : ∀ (fs : List FunDecl) {fs' : List FunDecl},
    List.Forall₂ FunDecl.Unrolls fs fs' → (∀ f ∈ fs, f.Shaped) → ∀ f ∈ fs', f.Shaped
  | [], _, .nil, _ => List.forall_mem_nil _
  | f :: rest, _, .cons hf hrest, h =>
    List.forall_mem_cons.mpr ⟨FunDecl.shaped_of_unrolls f hf (List.forall_mem_cons.mp h).1,
      FunDecl.shaped_of_rowUnrolls rest hrest (List.forall_mem_cons.mp h).2⟩
termination_by structural st => st

end

theorem Stmt.Unrolls.declares_eq {inside : Bool} {st st' : Stmt} (h : st.Unrolls st')
    (hshaped : st.Shaped inside) : st'.declares = st.declares := by
  by_cases hplain : st.declared? = none
  · rw [Stmt.declares_eq_nil st hshaped hplain, Stmt.declares_eq_nil st'
      (Stmt.shaped_of_unrolls st h hshaped) (h.declared?_eq.trans hplain)]
  · cases h with
    | var | «class» => rfl
    | function hf => rw [declares, declares, hf.name_eq]
    | _ => exact absurd rfl hplain

/-- Behind a statement, which declares a name only where there is a common scope. -/
theorem Context.Padded.behind {Γ : Padding} {ctx ctx' : Context} {inside : Bool} {st st' : Stmt}
    (h : Padded Γ ctx ctx') (hopen : Γ.IsOpen) (hunrolls : st.Unrolls st')
    (hshaped : st.Shaped inside) : Padded Γ (ctx.behind st) (ctx'.behind st') := by
  rw [Context.behind, Context.behind, hunrolls.declares_eq hshaped]
  exact h.declareAll hopen hshaped.ordinary_declares

/-! ## Statements -/

section Unrolled

variable (ctx : Context) (initializer : Option Stmt) (condition increment : Option Expr)
  (body : Stmt)

/-- The scope that the body and the increment share. -/
def Context.insideRound (ctx : Context) (initializer : Option Stmt) : Context :=
  .names [] :: ctx.insideFor initializer

theorem Stmt.located_unrolled : (Stmt.unrolled initializer condition increment body).located ctx
    = .unrolled (Stmt.locatedOption (.names [] :: ctx) initializer)
      (condition.map (Expr.located (ctx.insideFor initializer)))
      (increment.map (Expr.located ((ctx.insideRound initializer).behind body)))
      (body.located (ctx.insideRound initializer)) := by
  cases initializer <;> cases condition <;> cases increment <;> rfl

theorem Stmt.mentions_unrolled : (Stmt.unrolled initializer condition increment body).mentions ctx
    = Stmt.mentionsOption (.names [] :: ctx) initializer
      ++ Expr.mentionsOption (ctx.insideFor initializer) none condition
      ++ body.mentions (ctx.insideRound initializer)
      ++ Expr.mentionsOption ((ctx.insideRound initializer).behind body) none increment := by
  have hround : ∀ inner : Context,
      Stmt.mentions inner (.block (body :: increment.toList.map .expression))
        = body.mentions (.names [] :: inner)
          ++ Expr.mentionsOption (Context.behind (.names [] :: inner) body) none increment := by
    intro inner
    cases increment with
    | none => rfl
    | some e => exact congrArg (_ ++ ·) (List.append_nil _)
  have hloop : ∀ inner : Context,
      Stmt.mentionsRow inner [.loop (condition.getD (.literal (.bool true)))
          (.block (body :: increment.toList.map .expression))]
        = Expr.mentionsOption inner none condition ++ (body.mentions (.names [] :: inner)
          ++ Expr.mentionsOption (Context.behind (.names [] :: inner) body) none increment) := by
    intro inner
    rw [← hround inner]
    cases condition <;> exact List.append_nil _
  cases initializer with
  | none => exact (hloop _).trans (List.append_assoc ..).symm
  | some st =>
    refine (congrArg (_ ++ ·) (hloop _)).trans ?_
    rw [← List.append_assoc, ← List.append_assoc]
    rfl

end Unrolled

/-- The resolver makes the same of two statements, apart from the distances, and has the same
complaints about them. -/
structure Stmt.Alike (Γ : Padding) (ctx ctx' : Context) (st st' : Stmt) : Prop where
  pads : (st.located ctx).Pads Γ (st'.located ctx')
  complaints : Mention.complaints (st.mentions ctx) = Mention.complaints (st'.mentions ctx')

structure Stmt.OptionAlike (Γ : Padding) (ctx ctx' : Context) (st st' : Option Stmt) : Prop where
  pads : Stmt.OptionPads Γ (Stmt.locatedOption ctx st) (Stmt.locatedOption ctx' st')
  complaints : Mention.complaints (Stmt.mentionsOption ctx st)
    = Mention.complaints (Stmt.mentionsOption ctx' st')

structure Stmt.RowAlike (Γ : Padding) (ctx ctx' : Context) (body body' : List Stmt) : Prop where
  pads : Stmt.RowPads Γ (Stmt.locatedRow ctx body) (Stmt.locatedRow ctx' body')
  complaints : Mention.complaints (Stmt.mentionsRow ctx body)
    = Mention.complaints (Stmt.mentionsRow ctx' body')

structure FunDecl.Alike (Γ : Padding) (ctx ctx' : Context) (f f' : FunDecl) : Prop where
  pads : (f.located ctx).Pads Γ (f'.located ctx')
  complaints : Mention.complaints (f.mentions ctx) = Mention.complaints (f'.mentions ctx')

structure FunDecl.RowAlike (Γ : Padding) (ctx ctx' : Context) (fs fs' : List FunDecl) : Prop where
  pads : FunDecl.RowPads Γ (FunDecl.locatedRow ctx fs) (FunDecl.locatedRow ctx' fs')
  complaints : Mention.complaints (FunDecl.mentionsRow ctx fs)
    = Mention.complaints (FunDecl.mentionsRow ctx' fs')

section Statements

variable {Γ : Padding} {ctx ctx' : Context}

open Context (Padded)

/-- A name is declared in a common scope, so it is new on both sides or on neither. -/
theorem Mention.complaints_declared (h : Padded Γ ctx ctx') (hopen : Γ.IsOpen) (name : Token)
    {rest rest' : List Mention} (hrest : complaints rest = complaints rest') :
    complaints (.declared name ctx :: rest) = complaints (.declared name ctx' :: rest') := by
  have hcomplaint : (declared name ctx).complaint? = (declared name ctx').complaint? := by
    rw [complaint?, complaint?]
    exact if_congr (h.admits_iff hopen name.lexeme).symm rfl rfl
  rw [complaints_cons, complaints_cons, hcomplaint, hrest]

theorem Mention.complaints_parameters (h : Padded Γ ctx ctx') (hopen : Γ.IsOpen)
    {parameters : List Token} (hparameters : ∀ p ∈ parameters, Ordinary p.lexeme) :
    complaints (parameterMentions ctx parameters)
      = complaints (parameterMentions ctx' parameters) := by
  induction parameters generalizing ctx ctx' with
  | nil => rfl
  | cons p rest ih =>
    obtain ⟨hp, hrest⟩ := List.forall_mem_cons.mp hparameters
    exact complaints_declared h hopen p (ih (h.declare hopen hp) hrest)

namespace Stmt.Alike

theorem var (h : Padded Γ ctx ctx') (hopen : Γ.IsOpen) {name : Token} {initializer : Option Expr}
    (hname : Ordinary name.lexeme) (hinitializer : ∀ e ∈ initializer, e.Shaped) :
    Stmt.Alike Γ ctx ctx' (.var name initializer) (.var name initializer) := by
  refine ⟨.var hopen (Expr.Shaped.lifts_option hinitializer (h.declare hopen hname)), ?_⟩
  refine Mention.complaints_declared h hopen name ?_
  rw [h.awaiting_eq hopen]
  exact Expr.complaints_option_eq ..

theorem branch (h : Padded Γ ctx ctx') {condition : Expr} {yes yes' : Stmt} {no no' : Option Stmt}
    (hcondition : condition.Shaped) (hyes : Stmt.Alike Γ ctx ctx' yes yes')
    (hno : Stmt.OptionAlike Γ ctx ctx' no no') (hbehind : ctx.behind yes = ctx)
    (hbehind' : ctx'.behind yes' = ctx') :
    Stmt.Alike Γ ctx ctx' (.branch condition yes no) (.branch condition yes' no') := by
  refine ⟨?_, ?_⟩
  · rw [located, located, hbehind, hbehind']
    exact .branch (hcondition.lifts h) hyes.pads hno.pads
  · rw [mentions, mentions, hbehind, hbehind']
    simp only [Mention.complaints_append]
    rw [condition.complaints_eq ctx ctx', hyes.complaints, hno.complaints]

theorem loop (h : Padded Γ ctx ctx') {condition : Expr} {body body' : Stmt}
    (hcondition : condition.Shaped) (hbody : Stmt.Alike Γ ctx ctx' body body') :
    Stmt.Alike Γ ctx ctx' (.loop condition body) (.loop condition body') := by
  refine ⟨.loop (hcondition.lifts h) hbody.pads, ?_⟩
  rw [mentions, mentions, Mention.complaints_append, Mention.complaints_append,
    condition.complaints_eq ctx ctx', hbody.complaints]

variable {initializer initializer' : Option Stmt}

theorem forLoop
    (hinner : Padded (false :: Γ) (ctx.insideFor initializer) (ctx'.insideFor initializer'))
    {condition increment : Option Expr} {body body' : Stmt}
    (hinitializer : Stmt.OptionAlike (false :: Γ) (.names [] :: ctx) (.names [] :: ctx')
      initializer initializer')
    (hcondition : ∀ e ∈ condition, e.Shaped) (hincrement : ∀ e ∈ increment, e.Shaped)
    (hbody : Stmt.Alike (false :: Γ) (ctx.insideFor initializer) (ctx'.insideFor initializer')
      body body')
    (hbehind : ∀ inner : Context, inner.behind body = inner)
    (hbehind' : ∀ inner : Context, inner.behind body' = inner) :
    Stmt.Alike Γ ctx ctx' (.forLoop initializer condition increment body)
      (.forLoop initializer' condition increment body') := by
  refine ⟨?_, ?_⟩
  · rw [located, located, hbehind, hbehind']
    exact .forLoop hinitializer.pads (Expr.Shaped.lifts_option hcondition hinner)
      (Expr.Shaped.lifts_option hincrement hinner) hbody.pads
  · rw [mentions, mentions]
    simp only [Mention.complaints_append]
    rw [hinitializer.complaints, hbody.complaints,
      Expr.complaints_option_eq _ (ctx'.insideFor initializer') none condition,
      Expr.complaints_option_eq _ ((ctx'.insideFor initializer').behind body') none increment]

/-- The block around the body and the increment is the additional scope. -/
theorem unrolled
    (hinner : Padded (false :: Γ) (ctx.insideFor initializer) (ctx'.insideFor initializer'))
    {condition increment : Option Expr} {body body' : Stmt}
    (hinitializer : Stmt.OptionAlike (false :: Γ) (.names [] :: ctx) (.names [] :: ctx')
      initializer initializer')
    (hcondition : ∀ e ∈ condition, e.Shaped) (hincrement : ∀ e ∈ increment, e.Shaped)
    (hbody : Stmt.Alike (true :: false :: Γ) (ctx.insideFor initializer)
      (ctx'.insideRound initializer') body body')
    (hbehind : ∀ inner : Context, inner.behind body = inner)
    (hbehind' : ∀ inner : Context, inner.behind body' = inner) :
    Stmt.Alike Γ ctx ctx' (.forLoop initializer condition increment body)
      (.unrolled initializer' condition increment body') := by
  refine ⟨?_, ?_⟩
  · rw [located, located_unrolled, hbehind, hbehind']
    exact .unrolled hinitializer.pads (Expr.Shaped.lifts_option hcondition hinner)
      (Expr.Shaped.lifts_option hincrement hinner.extra) hbody.pads
  · rw [mentions, mentions_unrolled]
    simp only [Mention.complaints_append]
    rw [hinitializer.complaints, hbody.complaints,
      Expr.complaints_option_eq _ (ctx'.insideFor initializer') none condition,
      Expr.complaints_option_eq _ ((ctx'.insideRound initializer').behind body') none increment]

theorem «class» (h : Padded Γ ctx ctx') (hopen : Γ.IsOpen) {name : Token}
    {superclass : Option Reference} {methods methods' : List FunDecl}
    (hname : Ordinary name.lexeme)
    (hmethods : FunDecl.RowAlike (false :: false :: Γ)
      ((ctx.declare name.lexeme).insideClass superclass.isSome)
      ((ctx'.declare name.lexeme).insideClass superclass.isSome) methods methods') :
    Stmt.Alike Γ ctx ctx' (.class name superclass methods) (.class name superclass methods') := by
  have hlocated : superclass.map (Reference.located (ctx'.declare name.lexeme))
      = (superclass.map (Reference.located (ctx.declare name.lexeme))).map
        (Reference.lifted Γ) := by
    cases superclass with
    | none => rfl
    | some r => exact congrArg some ((h.declare hopen hname).located_eq r)
  refine ⟨?_, ?_⟩
  · rw [located, located, hlocated]
    exact .class hopen hmethods.pads
  · refine Mention.complaints_declared h hopen name ?_
    refine (Mention.complaints_append ..).trans (.trans ?_ (Mention.complaints_append ..).symm)
    rw [hmethods.complaints]
    cases superclass <;> rfl

end Stmt.Alike

theorem FunDecl.Alike.of_body (h : Padded Γ ctx ctx') {name : Token} {parameters : List Token}
    {body body' : Stmt} (hparameters : ∀ p ∈ parameters, Ordinary p.lexeme)
    (hbody : Stmt.Alike (false :: Γ) (ctx.insideFunction parameters)
      (ctx'.insideFunction parameters) body body') :
    FunDecl.Alike Γ ctx ctx' (.mk name parameters body) (.mk name parameters body') := by
  refine ⟨.mk hbody.pads, ?_⟩
  rw [mentions, mentions, Mention.complaints_append, Mention.complaints_append, hbody.complaints,
    Mention.complaints_parameters h.block (Padding.isOpen_common Γ) hparameters]

theorem Context.Padded.insideFor (h : Padded Γ ctx ctx') {inside : Bool}
    {initializer initializer' : Option Stmt}
    (hunrolls : Option.Rel Stmt.Unrolls initializer initializer')
    (hshaped : ∀ st ∈ initializer, st.Shaped inside) :
    Padded (false :: Γ) (ctx.insideFor initializer) (ctx'.insideFor initializer') := by
  cases hunrolls with
  | none => exact h.block
  | some hst => exact h.block.behind (Padding.isOpen_common Γ) hst (hshaped _ rfl)

theorem Context.Padded.insideFunction (h : Padded Γ ctx ctx') {parameters : List Token}
    (hparameters : ∀ p ∈ parameters, Ordinary p.lexeme) :
    Padded (false :: Γ) (ctx.insideFunction parameters) (ctx'.insideFunction parameters) :=
  h.block.declareAll (Padding.isOpen_common Γ) (List.forall_mem_map.mpr hparameters)

end Statements

open Context (Padded)

/-- The other form of a body declares nothing either. -/
theorem Stmt.Unrolls.behind_eq {inside : Bool} {st st' : Stmt} (h : st.Unrolls st')
    (hshaped : st.Shaped inside) (hplain : st.declared? = none) (ctx : Context) :
    ctx.behind st' = ctx :=
  (Stmt.shaped_of_unrolls st h hshaped).behind_eq (h.declared?_eq.trans hplain) ctx

/-- A body is in an additional scope or not, since it declares nothing. -/
theorem Stmt.isOpen_of_plain {st : Stmt} (hplain : st.declared? = none) {Γ : Padding} :
    st.declared? ≠ none → Γ.IsOpen := fun h ↦ absurd hplain h

mutual

/-- The resolver makes the same of a statement however its for statements are written. -/
theorem Stmt.alike_of_unrolls : ∀ (st : Stmt) {st' : Stmt} {inside : Bool} {Γ : Padding}
    {ctx ctx' : Context}, st.Unrolls st' → st.Shaped inside → Padded Γ ctx ctx' →
    (st.declared? ≠ none → Γ.IsOpen) → Stmt.Alike Γ ctx ctx' st st'
  | .expression value => fun hunrolls hshaped h _ ↦ by
    cases hunrolls with | expression =>
    cases hshaped with | expression hvalue =>
    exact ⟨.expression (hvalue.lifts h), Expr.complaints_eq _ _ none value⟩
  | .print value => fun hunrolls hshaped h _ ↦ by
    cases hunrolls with | print =>
    cases hshaped with | print hvalue =>
    exact ⟨.print (hvalue.lifts h), Expr.complaints_eq _ _ none value⟩
  | .var name _ => fun hunrolls hshaped h hopen ↦ by
    cases hunrolls with | var =>
    cases hshaped with | var hname hinitializer =>
    exact .var h (hopen (Option.some_ne_none name)) hname hinitializer
  | .block body => fun hunrolls hshaped h _ ↦ by
    cases hunrolls with | block hbody =>
    cases hshaped with | block hshaped =>
    have hrow := Stmt.rowAlike_of_unrolls body hbody hshaped h.block (Padding.isOpen_common _)
    exact ⟨.block hrow.pads, hrow.complaints⟩
  | .branch _ yes no => fun hunrolls hshaped h _ ↦ by
    cases hunrolls with | branch hyes hno =>
    cases hshaped with | branch hcondition hshaped hplain hshaped' hplain' =>
    exact .branch h hcondition
      (Stmt.alike_of_unrolls yes hyes hshaped h (Stmt.isOpen_of_plain hplain))
      (Stmt.optionAlike_of_unrolls no hno hshaped' h fun st hst ↦
        Stmt.isOpen_of_plain (hplain' st hst))
      (hshaped.behind_eq hplain _) (hyes.behind_eq hshaped hplain _)
  | .loop _ body => fun hunrolls hshaped h _ ↦ by
    cases hunrolls with | loop hbody =>
    cases hshaped with | loop hcondition hshaped hplain =>
    exact .loop h hcondition
      (Stmt.alike_of_unrolls body hbody hshaped h (Stmt.isOpen_of_plain hplain))
  | .forLoop initializer _ _ body => fun hunrolls hshaped h _ ↦ by
    cases hshaped with | forLoop hshaped hcondition hincrement hshaped' hplain =>
    cases hunrolls with
    | forLoop hinitializer hbody =>
      have hinner := h.insideFor hinitializer hshaped
      exact .forLoop hinner
        (Stmt.optionAlike_of_unrolls initializer hinitializer hshaped h.block
          fun _ _ _ ↦ Padding.isOpen_common _)
        hcondition hincrement
        (Stmt.alike_of_unrolls body hbody hshaped' hinner (Stmt.isOpen_of_plain hplain))
        (hshaped'.behind_eq hplain) (hbody.behind_eq hshaped' hplain)
    | unrolled hinitializer hbody =>
      have hinner := h.insideFor hinitializer hshaped
      exact .unrolled hinner
        (Stmt.optionAlike_of_unrolls initializer hinitializer hshaped h.block
          fun _ _ _ ↦ Padding.isOpen_common _)
        hcondition hincrement
        (Stmt.alike_of_unrolls body hbody hshaped' hinner.extra (Stmt.isOpen_of_plain hplain))
        (hshaped'.behind_eq hplain) (hbody.behind_eq hshaped' hplain)
  | .function f => fun hunrolls hshaped h hopen ↦ by
    cases hunrolls with | function hf =>
    cases hshaped with | function hname hshaped =>
    have hopen := hopen (Option.some_ne_none f.name)
    have halike := FunDecl.alike_of_unrolls f hf hshaped (h.declare hopen hname)
    refine ⟨?_, ?_⟩
    · rw [Stmt.located, Stmt.located, hf.name_eq]
      exact .function hopen halike.pads
    · rw [Stmt.mentions, Stmt.mentions, hf.name_eq]
      exact Mention.complaints_declared h hopen f.name halike.complaints
  | .return _ value => fun hunrolls hshaped h _ ↦ by
    cases hunrolls with | «return» =>
    cases hshaped with | «return» hvalue =>
    exact ⟨.return (Expr.Shaped.lifts_option hvalue h), Expr.complaints_option_eq _ _ none value⟩
  | .class name superclass methods => fun hunrolls hshaped h hopen ↦ by
    cases hunrolls with | «class» hmethods =>
    cases hshaped with | «class» hname _ hshaped =>
    have hopen := hopen (Option.some_ne_none name)
    exact .class h hopen hname
      (FunDecl.rowAlike_of_unrolls methods hmethods hshaped (h.declare hopen hname).class)
termination_by structural st => st

theorem Stmt.optionAlike_of_unrolls : ∀ (st : Option Stmt) {st' : Option Stmt} {inside : Bool}
    {Γ : Padding} {ctx ctx' : Context}, Option.Rel Stmt.Unrolls st st' →
    (∀ s ∈ st, s.Shaped inside) → Padded Γ ctx ctx' →
    (∀ s ∈ st, s.declared? ≠ none → Γ.IsOpen) → Stmt.OptionAlike Γ ctx ctx' st st'
  | none => fun hunrolls _ _ _ ↦ by
    cases hunrolls
    exact ⟨.none, rfl⟩
  | some st => fun hunrolls hshaped h hopen ↦ by
    cases hunrolls with | some hst =>
    have halike := Stmt.alike_of_unrolls st hst (hshaped st rfl) h (hopen st rfl)
    exact ⟨.some halike.pads, halike.complaints⟩
termination_by structural st => st

theorem Stmt.rowAlike_of_unrolls : ∀ (body : List Stmt) {body' : List Stmt} {inside : Bool}
    {Γ : Padding} {ctx ctx' : Context}, Stmt.RowUnrolls body body' →
    (∀ st ∈ body, st.Shaped inside) → Padded Γ ctx ctx' → Γ.IsOpen →
    Stmt.RowAlike Γ ctx ctx' body body'
  | [] => fun hunrolls _ _ _ ↦ by
    cases hunrolls
    exact ⟨.nil, rfl⟩
  | st :: rest => fun hunrolls hshaped h hopen ↦ by
    cases hunrolls with | cons hst hrest =>
    obtain ⟨hshaped, hshaped'⟩ := List.forall_mem_cons.mp hshaped
    have halike := Stmt.alike_of_unrolls st hst hshaped h fun _ ↦ hopen
    have hrow := Stmt.rowAlike_of_unrolls rest hrest hshaped' (h.behind hopen hst hshaped) hopen
    refine ⟨.cons halike.pads hrow.pads, ?_⟩
    rw [Stmt.mentionsRow, Stmt.mentionsRow, Mention.complaints_append, Mention.complaints_append,
      halike.complaints, hrow.complaints]
termination_by structural body => body

theorem FunDecl.alike_of_unrolls : ∀ (f : FunDecl) {f' : FunDecl} {Γ : Padding}
    {ctx ctx' : Context}, f.Unrolls f' → f.Shaped → Padded Γ ctx ctx' →
    FunDecl.Alike Γ ctx ctx' f f'
  | .mk _ _ body => fun hunrolls hshaped h ↦ by
    cases hunrolls with | mk hbody =>
    cases hshaped with | mk hparameters hshaped hplain =>
    exact .of_body h hparameters
      (Stmt.alike_of_unrolls body hbody hshaped (h.insideFunction hparameters)
        (Stmt.isOpen_of_plain hplain))
termination_by structural f => f

theorem FunDecl.rowAlike_of_unrolls : ∀ (fs : List FunDecl) {fs' : List FunDecl} {Γ : Padding}
    {ctx ctx' : Context}, List.Forall₂ FunDecl.Unrolls fs fs' → (∀ f ∈ fs, f.Shaped) →
    Padded Γ ctx ctx' → FunDecl.RowAlike Γ ctx ctx' fs fs'
  | [] => fun hunrolls _ _ ↦ by
    cases hunrolls
    exact ⟨.nil, rfl⟩
  | f :: rest => fun hunrolls hshaped h ↦ by
    cases hunrolls with | cons hf hrest =>
    obtain ⟨hshaped, hshaped'⟩ := List.forall_mem_cons.mp hshaped
    have halike := FunDecl.alike_of_unrolls f hf hshaped h
    have hrow := FunDecl.rowAlike_of_unrolls rest hrest hshaped' h
    refine ⟨.cons halike.pads hrow.pads, ?_⟩
    rw [FunDecl.mentionsRow, FunDecl.mentionsRow, Mention.complaints_append,
      Mention.complaints_append, halike.complaints, hrow.complaints]
termination_by structural fs => fs

end

end Lox
