import Lox.Proofs.Lexical.Simulation.Statement
import Lox.Proofs.Tasks.Chain

/-!
# Every moment of a run

The simulation says how a run ends. This file says what holds while it is going on: whenever a task
is begun, the machine is at the place of the program that the task is about, and the place is
scoped. `Sound` collects what that means for each kind of task. One lemma per kind shows that a
sound task asks for sound tasks only, so by induction every chain of tasks is sound, from the
program inwards.

Two facts come along that only a chain can tell. A variable can be on the way only inside the
initializer of its own declaration, and a return statement can come up only inside the body of the
function that is being called.
-/

namespace Lox.Lexical

open Script (Heeds)

variable {excused : String → Prop} {inside : Bool} {β : Placement} {M : Lox.Machine} {μ : Machine}
  {ctx : Context} {scope : Scope} {pending : Option String} {host : Host} {nesting : Nat}
  {chain outer : List Begun} {t : Sigma Task} {α α' : Type}

/-- Inside of a scope the globals are not current. -/
theorem Meets.current_ne_globals (h : Meets excused β ctx scope M μ) (hctx : ctx ≠ []) :
    M.current ≠ Lox.Machine.globals := by
  intro hcurrent
  have hhead := h.head
  rw [hcurrent] at hhead
  have hopen := h.isOpen
  cases ctx with
  | nil => exact hctx rfl
  | cons layer outer =>
    cases layer with
    | names xs => exact absurd hhead.1 (by decide)
    | self => exact hopen
    | parent inherits => exact hopen

/-! ## Where a task stands -/

/-- If a variable is on the way, the expressions are parts of its initializer. -/
def Initializes (outer : List Begun) (pending : Option String) (es : List Expr) : Prop :=
  ∀ x, pending = some x → ∃ name initializer, Token.lexeme name = x ∧
    Initializing name initializer outer ∧ ∀ e ∈ es, initializer.Contains e

theorem initializes_none (outer : List Begun) (es : List Expr) : Initializes outer none es :=
  fun _ h ↦ by cases h

theorem Initializes.inner {es es' : List Expr} (h : Initializes outer pending es)
    (hes : t.2.expressions? = some es) (hes' : ∀ e' ∈ es', ∃ e ∈ es, e' = e ∨ e' ∈ e.parts) :
    Initializes ((t, M) :: outer) pending es' := by
  intro x hx
  obtain ⟨name, initializer, hname, houter, hcontains⟩ := h x hx
  refine ⟨name, initializer, hname, .inner hes hcontains houter, fun e' he' ↦ ?_⟩
  obtain ⟨e, he, rfl | hpart⟩ := hes' e' he'
  · exact hcontains e' he
  · exact .part (hcontains e he) hpart

/-- If there may be a return, the statement is a part of the body of the function being called. -/
def Returns (outer : List Begun) (inside : Bool) (st : Stmt) : Prop :=
  inside = true → ∃ f arguments M₀, Running f arguments M₀ outer ∧ f.declaration.body.Contains st

theorem Returns.inner {st st' : Stmt} (h : Returns outer inside st)
    (hst : t.2.statement? = some st) (hst' : st' = st ∨ st' ∈ st.parts) :
    Returns ((t, M) :: outer) inside st' := by
  intro hinside
  obtain ⟨f, arguments, M₀, houter, hcontains⟩ := h hinside
  refine ⟨f, arguments, M₀, .inner hst hcontains houter, ?_⟩
  rcases hst' with rfl | hpart
  · exact hcontains
  · exact .part hcontains hpart

/-- A task is begun at the place of the program that it is about. -/
inductive Sound (excused : String → Prop) (outer : List Begun) : Sigma Task → Lox.Machine → Prop
  | expressions {t : Sigma Task} {es : List Expr} {M : Lox.Machine} {β : Placement} {μ : Machine}
      {ctx : Context} {scope : Scope} {pending : Option String} :
      t.2.expressions? = some es → Meets excused β ctx scope M μ → Awaits ctx pending →
      (∀ e ∈ es, e.Scoped excused ctx pending) → Initializes outer pending es →
      Sound excused outer t M
  | statement {t : Sigma Task} {st : Stmt} {M : Lox.Machine} {β : Placement} {μ : Machine}
      {ctx : Context} {scope : Scope} {inside : Bool} :
      t.2.statement? = some st → Meets excused β ctx scope M μ → st.Scoped excused inside ctx →
      Returns outer inside st → Sound excused outer t M
  | call {V : Lox.Value} {Vs : List Lox.Value} {v : Value} {vs : List Value} {M : Lox.Machine}
      {β : Placement} {μ : Machine} {ctx : Context} {scope : Scope} :
      Meets excused β ctx scope M μ → ValueMatches excused β V v →
      List.Forall₂ (ValueMatches excused β) Vs vs →
      (∃ name, V.signature? = some (name, Vs.length)) → Sound excused outer ⟨_, .call V Vs⟩ M
  | callFunction {F : Lox.Closure} {Vs : List Lox.Value} {f : Closure} {vs : List Value}
      {M : Lox.Machine} {β : Placement} {μ : Machine} {ctx : Context} {scope : Scope} :
      Meets excused β ctx scope M μ → ClosureMatches excused β F f →
      List.Forall₂ (ValueMatches excused β) Vs vs → Vs.length = F.declaration.arity →
      Sound excused outer ⟨_, .callFunction F Vs⟩ M

theorem Sound.of_expressions {es : List Expr} (h : Sound excused outer t M)
    (hes : t.2.expressions? = some es) :
    ∃ β μ ctx scope pending, Meets excused β ctx scope M μ ∧ Awaits ctx pending ∧
      (∀ e ∈ es, e.Scoped excused ctx pending) ∧ Initializes outer pending es := by
  cases h with
  | expressions hes' h hpending hscoped hinitializes =>
    obtain rfl := Option.some.inj (hes'.symm.trans hes)
    exact ⟨_, _, _, _, _, h, hpending, hscoped, hinitializes⟩
  | statement hst =>
    rw [Task.statement?_eq_none hes] at hst
    cases hst
  | call => cases hes
  | callFunction => cases hes

theorem Sound.of_statement {st : Stmt} (h : Sound excused outer t M)
    (hst : t.2.statement? = some st) :
    ∃ β μ ctx scope inside, Meets excused β ctx scope M μ ∧ st.Scoped excused inside ctx ∧
      Returns outer inside st := by
  cases h with
  | expressions hes =>
    rw [Task.statement?_eq_none hes] at hst
    cases hst
  | statement hst' h hscoped hreturns =>
    obtain rfl := Option.some.inj (hst'.symm.trans hst)
    exact ⟨_, _, _, _, _, h, hscoped, hreturns⟩
  | call => cases hst
  | callFunction => cases hst

/-! ## Parts of scripts -/

variable {right : Sigma Task → Lox.Machine → Prop}
  {ok : Placement → Lox.Machine → Machine → α → α' → Prop}

/-- A part of a script that goes in lockstep with the lexical semantics. -/
theorem heeds_perform {p : Lox.Eval α} {q : Eval α'} (h : Lockstep excused false β p M q μ ok) :
    Heeds (Task.run host nesting) right (Script.perform p) M fun a M' ↦
      ∃ β' μ' a', Later β M β' M' ∧ ok β' M' μ' a a' := by
  refine .perform fun a M' hp ↦ ?_
  obtain ⟨β', a', μ', -, hlater, hok⟩ := h.ok_of hp
  exact ⟨β', μ', a', hlater, hok⟩

theorem heeds_answer {t : Task α} {q : Eval α'} {b : Bool} (ht : right ⟨α, t⟩ M)
    (h : Lockstep excused b β (t.run host nesting) M q μ ok) :
    Heeds (Task.run host nesting) right (Script.answer t) M fun a M' ↦
      ∃ β' μ' a', Later β M β' M' ∧ ok β' M' μ' a a' := by
  refine .answer ht fun a M' hp ↦ ?_
  obtain ⟨β', a', μ', -, hlater, hok⟩ := h.ok_of hp
  exact ⟨β', μ', a', hlater, hok⟩

theorem heeds_evaluate {e : Expr} (h : Meets excused β ctx scope M μ)
    (hpending : Awaits ctx pending)
    (he : e.Scoped excused ctx pending) (hinitializes : Initializes chain pending [e]) :
    Heeds (Task.run host nesting) (Sound excused chain) (Script.answer (.evaluate e)) M fun V M' ↦
      ∃ β' μ' v, Later β M β' M' ∧ Meets excused β' ctx scope M' μ' ∧ ValueMatches excused β' V v :=
  heeds_answer (b := false)
    (.expressions rfl h hpending (List.forall_mem_singleton.mpr he) hinitializes)
    ((simulates excused host nesting).evaluate h hpending he)

/-- An expression outside of all initializers. -/
theorem heeds_evaluate_none {e : Expr} (h : Meets excused β ctx scope M μ)
    (he : e.Scoped excused ctx none) :
    Heeds (Task.run host nesting) (Sound excused chain) (Script.answer (.evaluate e)) M fun V M' ↦
      ∃ β' μ' v, Later β M β' M' ∧ Meets excused β' ctx scope M' μ' ∧ ValueMatches excused β' V v :=
  heeds_evaluate h (awaits_none ctx) he (initializes_none _ _)

theorem heeds_execute {st : Stmt} (h : Meets excused β ctx scope M μ)
    (hst : st.Scoped excused inside ctx) (hreturns : Returns chain inside st) :
    Heeds (Task.run host nesting) (Sound excused chain) (Script.answer (.execute st)) M fun _ M' ↦
      ∃ β' μ' scope', Later β M β' M' ∧ Meets excused β' (ctx.after st) scope' M' μ' :=
  heeds_answer (.statement rfl h hst hreturns) ((simulates excused host nesting).execute h hst)

/-- A statement that declares nothing. -/
theorem heeds_executePlain {st : Stmt} (h : Meets excused β ctx scope M μ)
    (hst : st.Scoped excused inside ctx) (hplain : st.declared? = none)
    (hreturns : Returns chain inside st) :
    Heeds (Task.run host nesting) (Sound excused chain) (Script.answer (.execute st)) M fun _ M' ↦
      ∃ β' μ', Meets excused β' ctx scope M' μ' := by
  refine (heeds_answer (.statement rfl h hst hreturns)
    ((simulates excused host nesting).executePlain h hst hplain)).mono ?_
  rintro _ M' ⟨β', μ', _, -, h', -⟩
  exact ⟨β', μ', h'⟩

/-! ## Expressions -/

theorem heeds_expression {e : Expr} (h : Meets excused β ctx scope M μ)
    (hpending : Awaits ctx pending) (he : e.Scoped excused ctx pending)
    (hinitializes : Initializes chain pending (e :: e.parts)) :
    Heeds (Task.run host nesting) (Sound excused chain) e.script M fun _ _ ↦ True := by
  have hitself : Initializes chain pending [e] := fun x hx ↦ by
    obtain ⟨name, initializer, hname, houter, hcontains⟩ := hinitializes x hx
    exact ⟨name, initializer, hname, houter,
      List.forall_mem_singleton.mpr (hcontains e List.mem_cons_self)⟩
  have hpart : ∀ e' ∈ e.parts, Initializes chain pending [e'] := fun e' he' x hx ↦ by
    obtain ⟨name, initializer, hname, houter, hcontains⟩ := hinitializes x hx
    exact ⟨name, initializer, hname, houter,
      List.forall_mem_singleton.mpr (hcontains e' (List.mem_cons_of_mem _ he'))⟩
  have hself : ∀ t : Task Lox.Value, t.expressions? = some [e] →
      Heeds (Task.run host nesting) (Sound excused chain) (Script.answer t) M fun _ _ ↦ True :=
    fun t ht ↦ .answer (.expressions ht h hpending (List.forall_mem_singleton.mpr he) hitself)
      fun _ _ _ ↦ trivial
  rw [Expr.script.eq_def]
  cases he with
  | literal => exact .pure trivial
  | group hinner =>
    exact (heeds_evaluate h hpending hinner (hpart _ (by simp [Expr.parts]))).mono
      fun _ _ _ ↦ trivial
  | unary hoperand =>
    exact (heeds_evaluate h hpending hoperand (hpart _ (by simp [Expr.parts]))).bind
      fun _ _ _ ↦ .perform fun _ _ _ ↦ trivial
  | binary hleft hright => exact hself _ rfl
  | logical hleft hright =>
    refine (heeds_evaluate h hpending hleft (hpart _ (by simp [Expr.parts]))).bind ?_
    rintro V M₁ ⟨β₁, μ₁, v, -, h₁, -⟩
    split
    · exact .pure trivial
    · exact (heeds_evaluate h₁ hpending hright (hpart _ (by simp [Expr.parts]))).mono
        fun _ _ _ ↦ trivial
  | var => exact .perform fun _ _ _ ↦ trivial
  | property hobject =>
    exact (heeds_evaluate h hpending hobject (hpart _ (by simp [Expr.parts]))).bind
      fun _ _ _ ↦ .perform fun _ _ _ ↦ trivial
  | assign => exact hself _ rfl
  | assignPending => exact hself _ rfl
  | setProperty => exact hself _ rfl
  | call => exact hself _ rfl
  | self => exact .perform fun _ _ _ ↦ trivial
  | inherited => exact .perform fun _ _ _ ↦ trivial

/-! ## Statements -/

theorem heeds_loopRound {condition : Expr} {body : Stmt} (h : Meets excused β ctx scope M μ)
    (hcondition : condition.Scoped excused ctx none) (hbody : body.Scoped excused inside ctx)
    (hplain : body.declared? = none) (hreturns : Returns chain inside body) :
    Heeds (Task.run host nesting) (Sound excused chain) (loopRound condition body) M fun _ M' ↦
      ∃ β' μ', Meets excused β' ctx scope M' μ' := by
  rw [loopRound]
  refine (heeds_evaluate_none h hcondition).bind ?_
  rintro V M₁ ⟨β₁, μ₁, v, -, h₁, -⟩
  split
  · exact (heeds_executePlain h₁ hbody hplain hreturns).bind fun _ _ h₂ ↦ .pure h₂
  · exact .pure ⟨β₁, μ₁, h₁⟩

theorem heeds_forRound {condition increment : Option Expr} {body : Stmt}
    (h : Meets excused β ctx scope M μ) (hcondition : ∀ e ∈ condition, e.Scoped excused ctx none)
    (hincrement : ∀ e ∈ increment, e.Scoped excused ctx none)
    (hbody : body.Scoped excused inside ctx) (hplain : body.declared? = none)
    (hreturns : Returns chain inside body) :
    Heeds (Task.run host nesting) (Sound excused chain) (forRound condition increment body) M
      fun _ M' ↦ ∃ β' μ', Meets excused β' ctx scope M' μ' := by
  rw [forRound.eq_def]
  refine Heeds.bind (P := fun _ M' ↦ ∃ β' μ', Meets excused β' ctx scope M' μ') ?_ ?_
  · cases condition with
    | none => exact .pure ⟨β, μ, h⟩
    | some e =>
      refine (heeds_evaluate_none h (hcondition e rfl)).bind ?_
      rintro V M₁ ⟨β₁, μ₁, v, -, h₁, -⟩
      exact .pure ⟨β₁, μ₁, h₁⟩
  · rintro holds M₁ ⟨β₁, μ₁, h₁⟩
    split
    · refine (heeds_executePlain h₁ hbody hplain hreturns).bind ?_
      rintro _ M₂ ⟨β₂, μ₂, h₂⟩
      cases increment with
      | none => exact .pure ⟨β₂, μ₂, h₂⟩
      | some e =>
        refine (heeds_evaluate_none h₂ (hincrement e rfl)).bind ?_
        rintro V M₃ ⟨β₃, μ₃, v, -, h₃, -⟩
        exact .pure ⟨β₃, μ₃, h₃⟩
    · exact .pure ⟨β₁, μ₁, h₁⟩

/-- What a statement asks for once it has been counted. -/
theorem heeds_statement {st : Stmt} {M₀ : Lox.Machine} (h : Meets excused β ctx scope M μ)
    (hst : st.Scoped excused inside ctx) (hcurrent : M₀.current = M.current)
    (hreturns : Returns outer inside st) :
    Heeds (Task.run host nesting) (Sound excused ((⟨_, .execute st⟩, M₀) :: outer))
      (st.script host) M fun _ _ ↦ True := by
  have hitself : ∀ t : Task Unit, t.statement? = some st →
      Heeds (Task.run host nesting) (Sound excused ((⟨_, .execute st⟩, M₀) :: outer))
        (Script.answer t) M fun _ _ ↦ True :=
    fun t ht ↦ .answer (.statement ht h hst (hreturns.inner rfl (.inl rfl))) fun _ _ _ ↦ trivial
  have hpart : ∀ st' ∈ st.parts, Returns ((⟨_, .execute st⟩, M₀) :: outer) inside st' :=
    fun st' h ↦ hreturns.inner rfl (.inr h)
  rw [Stmt.script.eq_def]
  cases hst with
  | expression hvalue => exact (heeds_evaluate_none h hvalue).bind fun _ _ _ ↦ .pure trivial
  | print hvalue =>
    exact (heeds_evaluate_none h hvalue).bind fun _ _ _ ↦ .perform fun _ _ _ ↦ trivial
  | @var _ _ name initializer hname hadmits hinitializer =>
    cases initializer with
    | none => exact .perform fun _ _ _ ↦ trivial
    | some e =>
      refine (heeds_evaluate h (awaits_awaiting h.isOpen hadmits) (hinitializer e rfl) ?_).bind
        fun _ _ _ ↦ .perform fun _ _ _ ↦ trivial
      -- A variable is on the way only where there is a scope around its declaration.
      intro x hx
      refine ⟨name, e, ?_, .declaration ?_, List.forall_mem_singleton.mpr .itself⟩
      · cases ctx with
        | nil => cases hx
        | cons => exact Option.some.inj hx
      · rw [hcurrent]
        exact h.current_ne_globals fun hctx ↦ by
          rw [hctx] at hx
          cases hx
  | block hbody => exact hitself _ rfl
  | @branch _ _ condition yes no hcondition hyes hyesPlain hno hnoPlain =>
    refine (heeds_evaluate_none h hcondition).bind ?_
    rintro V M₁ ⟨β₁, μ₁, v, -, h₁, -⟩
    split
    · exact (heeds_executePlain h₁ hyes hyesPlain (hpart _ (by simp [Stmt.parts]))).mono
        fun _ _ _ ↦ trivial
    · cases no with
      | none => exact .pure trivial
      | some no =>
        exact (heeds_executePlain h₁ (hno no rfl) (hnoPlain no rfl)
          (hpart _ (by simp [Stmt.parts]))).mono fun _ _ _ ↦ trivial
  | loop hcondition hbody hplain =>
    refine (Heeds.repeatWhile (I := fun M' ↦ ∃ β' μ', Meets excused β' ctx scope M' μ') ?_
      host.rounds ⟨β, μ, h⟩).mono fun _ _ _ ↦ trivial
    rintro M₁ ⟨β₁, μ₁, h₁⟩
    exact heeds_loopRound h₁ hcondition hbody hplain (hpart _ (by simp [Stmt.parts]))
  | forLoop hinitializer hinner hcondition hincrement hbody hplain => exact hitself _ rfl
  | function => exact .perform fun _ _ _ ↦ trivial
  | @«return» _ _ value hvalue =>
    cases value with
    | none => exact .perform fun _ _ _ ↦ trivial
    | some e =>
      exact (heeds_evaluate_none h (hvalue e rfl)).bind fun _ _ _ ↦ .perform fun _ _ _ ↦ trivial
  | @«class» _ _ name superclass methods =>
    cases superclass with
    | none => exact .perform fun _ _ _ ↦ trivial
    | some r =>
      exact (Heeds.perform fun _ _ _ ↦ trivial).bind fun _ _ _ ↦ .perform fun _ _ _ ↦ trivial

theorem heeds_row {body : List Stmt} (h : Meets excused β ctx scope M μ)
    (hbody : Stmt.RowScoped excused inside ctx body)
    (hreturns : ∀ st ∈ body, Returns chain inside st) :
    Heeds (Task.run host nesting) (Sound excused chain)
      (body.forM fun st ↦ Script.answer (.execute st)) M fun _ _ ↦ True := by
  refine (Heeds.forM (I := fun rest M' ↦ ∃ β' μ' ctx' scope', Meets excused β' ctx' scope' M' μ' ∧
    Stmt.RowScoped excused inside ctx' rest ∧ ∀ st ∈ rest, Returns chain inside st) ?_
    ⟨β, μ, ctx, scope, h, hbody, hreturns⟩).mono fun _ _ _ ↦ trivial
  rintro st rest M₁ ⟨β₁, μ₁, ctx₁, scope₁, h₁, ⟨⟩ | ⟨hst, hrest⟩, hreturns₁⟩
  rw [List.forall_mem_cons] at hreturns₁
  refine (heeds_execute h₁ hst hreturns₁.1).mono ?_
  rintro _ M₂ ⟨β₂, μ₂, scope₂, -, h₂⟩
  exact ⟨β₂, μ₂, _, scope₂, h₂, hrest, hreturns₁.2⟩

/-! ## Tasks -/

theorem heeds_invocation {callee : Expr} {paren : Token} {items : List Expr}
    (h : Meets excused β ctx scope M μ) (hpending : Awaits ctx pending)
    (hcallee : callee.Scoped excused ctx pending)
    (hitems : ∀ e ∈ items, e.Scoped excused ctx pending)
    (hinitializes : Initializes chain pending (callee :: items)) :
    Heeds (Task.run host nesting) (Sound excused chain)
      ((Task.invocation callee paren items).script host) M fun _ _ ↦ True := by
  have hfirst : Initializes chain pending [callee] := fun x hx ↦ by
    obtain ⟨name, initializer, hname, houter, hcontains⟩ := hinitializes x hx
    exact ⟨name, initializer, hname, houter, List.forall_mem_singleton.mpr
      (hcontains callee List.mem_cons_self)⟩
  have hrest : Initializes chain pending items := fun x hx ↦ by
    obtain ⟨name, initializer, hname, houter, hcontains⟩ := hinitializes x hx
    exact ⟨name, initializer, hname, houter, fun e he ↦ hcontains e (List.mem_cons_of_mem _ he)⟩
  rw [Task.script]
  refine (heeds_evaluate h hpending hcallee hfirst).bind ?_
  rintro V M₁ ⟨β₁, μ₁, v, -, h₁, hV⟩
  refine (heeds_answer (b := false) (.expressions rfl h₁ hpending hitems hrest)
    ((simulates excused host nesting).evaluateArguments h₁ hpending hitems)).bind ?_
  rintro Vs M₂ ⟨β₂, μ₂, vs, hlater₂, h₂, hVs⟩
  have hV₂ := hV.mono hlater₂.within
  refine (heeds_perform (Lockstep.checkCall h₂ hV₂ paren Vs.length)).bind ?_
  rintro _ M₃ ⟨β₃, μ₃, _, hlater₃, h₃, hsignature⟩
  exact .answer (.call h₃ (hV₂.mono hlater₃.within)
    (hVs.imp fun _ _ hW ↦ hW.mono hlater₃.within) hsignature) fun _ _ _ ↦ trivial

theorem heeds_call {V : Lox.Value} {Vs : List Lox.Value} {v : Value} {vs : List Value}
    (h : Meets excused β ctx scope M μ) (hV : ValueMatches excused β V v)
    (hVs : List.Forall₂ (ValueMatches excused β) Vs vs)
    (hsignature : ∃ name, V.signature? = some (name, Vs.length)) :
    Heeds (Task.run host nesting) (Sound excused chain) (V.script host Vs) M fun _ _ ↦ True := by
  obtain ⟨name, hname⟩ := hsignature
  rw [Lox.Value.script.eq_def]
  cases hV with
  | function hF =>
    obtain ⟨-, harity⟩ := Prod.mk.inj (Option.some.inj hname)
    exact .answer (.callFunction h hF hVs harity.symm) fun _ _ _ ↦ trivial
  | @«class» C c hC =>
    obtain ⟨-, harity⟩ := Prod.mk.inj (Option.some.inj hname)
    refine (heeds_perform (Lockstep.newInstance h hC)).bind ?_
    rintro I M₁ ⟨β₁, μ₁, i, hlater₁, h₁, hI⟩
    have hinit := (hC.mono hlater₁.within).findMethod? initializerName
    rw [Lox.Class.arity] at harity
    generalize C.findMethod? initializerName = F at hinit harity
    generalize c.findMethod? initializerName = f at hinit
    cases hinit with
    | none => exact .pure trivial
    | some hF =>
      refine (heeds_perform (Lockstep.bindMethod h₁ hF hI ⟨_, rfl⟩)).bind ?_
      rintro G M₂ ⟨β₂, μ₂, g, hlater₂, h₂, hG, hdeclaration⟩
      refine Heeds.bind (P := fun _ _ ↦ True) (.answer ?_ fun _ _ _ ↦ trivial)
        fun _ _ _ ↦ .pure trivial
      exact .call h₂ (.function hG)
        (hVs.imp fun _ _ hW ↦ hW.mono (hlater₁.trans hlater₂).within)
        ⟨_, by rw [Lox.Value.signature?, hdeclaration, ← harity]⟩
  | _ => exact .perform fun _ _ _ ↦ trivial

theorem heeds_callFunction {F : Lox.Closure} {f : Closure} {Vs : List Lox.Value} {vs : List Value}
    (h : Meets excused β ctx scope M μ) (hF : ClosureMatches excused β F f)
    (hVs : List.Forall₂ (ValueMatches excused β) Vs vs) (harity : Vs.length = F.declaration.arity) :
    Heeds (Task.run host nesting) (Sound excused ((⟨_, .callFunction F Vs⟩, M) :: outer))
      ((Task.callFunction F Vs).script host) M fun _ _ ↦ True := by
  obtain ⟨β₁, μ₁, scope₁, ctx₁, -, -, hmeets, hbody⟩ := exists_body h.agree hF hVs harity
  rw [Task.script]
  refine (Heeds.perform fun _ _ hp ↦ hp).bind fun env M₁ hp ↦ ?_
  cases hp
  refine .body (P := fun _ _ ↦ True) (.enclose ?_) fun _ _ _ ↦ trivial
  exact (heeds_execute hmeets hbody fun _ ↦ ⟨F, Vs, M, .call, .itself⟩).mono fun _ _ _ ↦ trivial

theorem heeds_block {body : List Stmt} (h : Meets excused β ctx scope M μ)
    (hbody : Stmt.RowScoped excused inside (.names [] :: ctx) body)
    (hreturns : ∀ st ∈ body, Returns chain inside st) :
    Heeds (Task.run host nesting) (Sound excused chain) ((Task.block body).script host) M
      fun _ _ ↦ True := by
  rw [Task.script]
  refine (Heeds.perform fun _ _ hp ↦ hp).bind fun m M₁ hp ↦ ?_
  cases hp
  refine (Heeds.perform fun _ _ hp ↦ hp).bind fun env M₂ hp ↦ ?_
  cases hp
  exact .enclose (heeds_row (.enter h.agree h.proper h.placed (Lockstep.names_eq h)) hbody hreturns)

theorem heeds_forLoop {initializer : Option Stmt} {condition increment : Option Expr} {body : Stmt}
    (h : Meets excused β ctx scope M μ)
    (hst : (Stmt.forLoop initializer condition increment body).Scoped excused inside ctx)
    (hreturns : ∀ st ∈ body :: initializer.toList, Returns chain inside st) :
    Heeds (Task.run host nesting) (Sound excused chain)
      ((Task.forLoop initializer condition increment body).script host) M fun _ _ ↦ True := by
  rw [Task.script.eq_def]
  refine (Heeds.perform fun _ _ hp ↦ hp).bind fun m M₁ hp ↦ ?_
  cases hp
  refine (Heeds.perform fun _ _ hp ↦ hp).bind fun env M₂ hp ↦ ?_
  cases hp
  have henter : Meets excused β (.names [] :: ctx) (.within scope.names) _ μ :=
    .enter h.agree h.proper h.placed (Lockstep.names_eq h)
  rw [List.forall_mem_cons] at hreturns
  have hrounds : ∀ {β₁ : Placement} {ctx₁ : Context} {scope₁ : Scope} {M₁ : Lox.Machine}
      {μ₁ : Machine},
      Meets excused β₁ ctx₁ scope₁ M₁ μ₁ → (∀ e ∈ condition, e.Scoped excused ctx₁ none) →
      (∀ e ∈ increment, e.Scoped excused ctx₁ none) → body.Scoped excused inside ctx₁ →
      body.declared? = none → Heeds (Task.run host nesting) (Sound excused chain)
        (Script.repeatWhile (forRound condition increment body) host.rounds) M₁ fun _ _ ↦ True := by
    intro β₁ ctx₁ scope₁ M₁ μ₁ h₁ hcondition hincrement hbody hplain
    refine (Heeds.repeatWhile (I := fun M' ↦ ∃ β' μ', Meets excused β' ctx₁ scope₁ M' μ') ?_
      host.rounds ⟨β₁, μ₁, h₁⟩).mono fun _ _ _ ↦ trivial
    rintro M₂ ⟨β₂, μ₂, h₂⟩
    exact heeds_forRound h₂ hcondition hincrement hbody hplain hreturns.1
  cases hst with
  | forLoop hinitializer hinner hcondition hincrement hbody hplain =>
    subst hinner
    refine .enclose ?_
    cases initializer with
    | none => exact hrounds henter hcondition hincrement hbody hplain
    | some st =>
      refine (heeds_execute henter (hinitializer st rfl) (hreturns.2 st (by simp))).bind ?_
      rintro _ M₂ ⟨β₂, μ₂, scope₂, -, h₂⟩
      exact hrounds h₂ hcondition hincrement hbody hplain

/-- What a task asks for that evaluates expressions. -/
theorem heeds_expressions {t : Task α} {es : List Expr} (hes : t.expressions? = some es)
    (h : Meets excused β ctx scope M μ) (hpending : Awaits ctx pending)
    (hscoped : ∀ e ∈ es, e.Scoped excused ctx pending)
    (hinitializes : Initializes outer pending es) :
    Heeds (Task.run host nesting) (Sound excused ((⟨α, t⟩, M) :: outer)) (t.script host) M
      fun _ _ ↦ True := by
  have hparts : ∀ {es' : List Expr}, (∀ e' ∈ es', ∃ e ∈ es, e' = e ∨ e' ∈ e.parts) →
      Initializes ((⟨α, t⟩, M) :: outer) pending es' := hinitializes.inner hes
  cases t with
  | evaluate e =>
    obtain rfl : [e] = es := Option.some.inj hes
    refine heeds_expression h hpending (hscoped e List.mem_cons_self) (hparts ?_)
    simp
  | binary left operator right =>
    obtain rfl : [Expr.binary left operator right] = es := Option.some.inj hes
    cases hscoped _ List.mem_cons_self with
    | binary hleft hright =>
      refine (heeds_evaluate h hpending hleft (hparts (by simp [Expr.parts]))).bind ?_
      rintro V M₁ ⟨β₁, μ₁, v, -, h₁, -⟩
      exact (heeds_evaluate h₁ hpending hright (hparts (by simp [Expr.parts]))).bind
        fun _ _ _ ↦ .perform fun _ _ _ ↦ trivial
  | assignment target value =>
    obtain rfl : [Expr.assign target value] = es := Option.some.inj hes
    have hvalue : value.Scoped excused ctx pending := by
      cases hscoped _ List.mem_cons_self with
      | assign _ _ _ hvalue => exact hvalue
      | assignPending _ _ _ hvalue => exact hvalue
    exact (heeds_evaluate h hpending hvalue (hparts (by simp [Expr.parts]))).bind fun _ _ _ ↦
      (Heeds.perform fun _ _ _ ↦ trivial).bind fun _ _ _ ↦ .pure trivial
  | propertyAssignment object name value =>
    obtain rfl : [Expr.setProperty object name value] = es := Option.some.inj hes
    cases hscoped _ List.mem_cons_self with
    | setProperty hobject hvalue =>
      refine (heeds_evaluate h hpending hvalue (hparts (by simp [Expr.parts]))).bind ?_
      rintro V M₁ ⟨β₁, μ₁, v, -, h₁, -⟩
      exact (heeds_evaluate h₁ hpending hobject (hparts (by simp [Expr.parts]))).bind fun _ _ _ ↦
        (Heeds.perform fun _ _ _ ↦ trivial).bind fun _ _ _ ↦ .pure trivial
  | invocation callee paren items =>
    obtain rfl : [Expr.call callee paren items] = es := Option.some.inj hes
    cases hscoped _ List.mem_cons_self with
    | call hcallee hitems =>
      refine heeds_invocation h hpending hcallee hitems (hparts fun e' he' ↦ ?_)
      exact ⟨_, List.mem_cons_self, .inr he'⟩
  | arguments items =>
    obtain rfl : items = es := Option.some.inj hes
    refine (Heeds.each (I := fun M' ↦ ∃ β' μ', Meets excused β' ctx scope M' μ') ?_
      ⟨β, μ, h⟩).mono fun _ _ _ ↦ trivial
    rintro e he M₁ ⟨β₁, μ₁, h₁⟩
    refine (heeds_evaluate h₁ hpending (hscoped e he) (hparts ?_)).mono ?_
    · exact List.forall_mem_singleton.mpr ⟨e, he, .inl rfl⟩
    · rintro V M₂ ⟨β₂, μ₂, v, -, h₂, -⟩
      exact ⟨β₂, μ₂, h₂⟩
  | _ => cases hes

/-- What a task asks for that executes a statement. -/
theorem heeds_statements {t : Task α} {st : Stmt} (hst : t.statement? = some st)
    (h : Meets excused β ctx scope M μ) (hscoped : st.Scoped excused inside ctx)
    (hreturns : Returns outer inside st) :
    Heeds (Task.run host nesting) (Sound excused ((⟨α, t⟩, M) :: outer)) (t.script host) M
      fun _ _ ↦ True := by
  have hparts : ∀ st' ∈ st.parts, Returns ((⟨α, t⟩, M) :: outer) inside st' :=
    fun st' hpart ↦ hreturns.inner hst (.inr hpart)
  cases t with
  | execute st =>
    cases hst
    rw [Task.script]
    refine (heeds_perform (Lockstep.step h host)).bind ?_
    rintro _ M₁ ⟨β₁, μ₁, _, hlater, h₁, -⟩
    exact heeds_statement h₁ hscoped hlater.current.symm hreturns
  | block body =>
    cases hst
    cases hscoped with
    | block hbody => exact heeds_block h hbody hparts
  | forLoop initializer condition increment body =>
    cases hst
    exact heeds_forLoop h hscoped hparts
  | _ => cases hst

/-- A sound task asks for sound tasks. -/
theorem Sound.heeds (h : Sound excused outer t M) :
    Heeds (Task.run host nesting) (Sound excused ((t, M) :: outer)) (t.2.script host) M
      fun _ _ ↦ True := by
  cases h with
  | expressions hes h hpending hscoped hinitializes =>
    exact heeds_expressions hes h hpending hscoped hinitializes
  | statement hst h hscoped hreturns => exact heeds_statements hst h hscoped hreturns
  | call h hV hVs hsignature => exact heeds_call h hV hVs hsignature
  | callFunction h hF hVs harity => exact heeds_callFunction h hF hVs harity

/-- Whatever is being done is sound, if the program asks for sound tasks. -/
theorem sound_of_doing {s : Script α} {post : α → Lox.Machine → Prop}
    (hs : Heeds (Task.run host host.nesting) (Sound excused []) s M post)
    (h : Doing host s M nesting chain) :
    ∃ t M' outer, chain = (t, M') :: outer ∧ Sound excused outer t M' := by
  induction h with
  | outermost hasks => exact ⟨_, _, [], rfl, hs.asks _ _ hasks⟩
  | inner _ hasks ih =>
    obtain ⟨t, M', outer, heq, hsound⟩ := ih
    cases heq
    exact ⟨_, _, _, rfl, hsound.heeds.asks _ _ hasks⟩

end Lox.Lexical
