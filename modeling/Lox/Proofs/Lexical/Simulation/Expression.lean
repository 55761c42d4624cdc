import Lox.Proofs.Lexical.Objects

/-!
# Evaluating expressions in lockstep

One lemma for each function of the evaluator that deals with expressions and calls: if everything
that it may still call goes in lockstep, so does the function itself.
-/

namespace Lox.Lexical

variable {excused : String → Prop} {inside : Bool} {β : Placement} {M : Lox.Machine} {μ : Machine}
  {ctx : Context}
  {scope : Scope} {pending : Option String} {host : Host} {nesting : Nat}

/-- If a variable is on the way, it is a new one in the innermost scope. -/
def Awaits (ctx : Context) (pending : Option String) : Prop :=
  ∀ x, pending = some x → ∃ xs outer, ctx = .names xs :: outer ∧ x ∉ xs

theorem awaits_none (ctx : Context) : Awaits ctx none := fun _ h ↦ by cases h

/-- Whatever is evaluated or executed with a number of nested calls goes in lockstep. -/
structure Simulates (excused : String → Prop) (host : Host) (nesting : Nat) : Prop where
  evaluate : ∀ {inside β M μ ctx scope pending} {e : Expr}, Meets excused β ctx scope M μ →
    Awaits ctx pending → e.Scoped excused ctx pending →
    Lockstep excused inside β (Lox.Eval.evaluate host nesting e) M
      (Eval.evaluate host nesting scope.names e) μ (Yields excused ctx scope (ValueMatches excused))
  evaluateBinary : ∀ {inside β M μ ctx scope pending} {left right : Expr} {operator : Token},
    Meets excused β ctx scope M μ → Awaits ctx pending →
    left.Scoped excused ctx pending → right.Scoped excused ctx pending →
    Lockstep excused inside β (Lox.Eval.evaluateBinary host nesting left operator right) M
      (Eval.evaluateBinary host nesting scope.names left operator right) μ
      (Yields excused ctx scope (ValueMatches excused))
  evaluateAssignment : ∀ {inside β M μ ctx scope pending} {target : Reference} {value : Expr},
    Meets excused β ctx scope M μ → Awaits ctx pending →
    (Expr.assign target value).Scoped excused ctx pending →
    Lockstep excused inside β (Lox.Eval.evaluateAssignment host nesting target value) M
      (Eval.evaluateAssignment host nesting scope.names target.name value) μ
      (Yields excused ctx scope (ValueMatches excused))
  evaluatePropertyAssignment : ∀ {inside β M μ ctx scope pending} {object value : Expr}
    {name : Token},
    Meets excused β ctx scope M μ → Awaits ctx pending →
    object.Scoped excused ctx pending → value.Scoped excused ctx pending →
    Lockstep excused inside β (Lox.Eval.evaluatePropertyAssignment host nesting object name value) M
      (Eval.evaluatePropertyAssignment host nesting scope.names object name value) μ
      (Yields excused ctx scope (ValueMatches excused))
  evaluateCall : ∀ {inside β M μ ctx scope pending} {callee : Expr} {paren : Token}
    {arguments : List Expr}, Meets excused β ctx scope M μ → Awaits ctx pending →
    callee.Scoped excused ctx pending →
    (∀ argument ∈ arguments, argument.Scoped excused ctx pending) →
    Lockstep excused inside β (Lox.Eval.evaluateCall host nesting callee paren arguments) M
      (Eval.evaluateCall host nesting scope.names callee paren arguments) μ
      (Yields excused ctx scope (ValueMatches excused))
  evaluateArguments : ∀ {inside β M μ ctx scope pending} {arguments : List Expr},
    Meets excused β ctx scope M μ → Awaits ctx pending →
    (∀ argument ∈ arguments, argument.Scoped excused ctx pending) →
    Lockstep excused inside β (Lox.Eval.evaluateArguments host nesting arguments) M
      (Eval.evaluateArguments host nesting scope.names arguments) μ
      (Yields excused ctx scope fun β ↦ List.Forall₂ (ValueMatches excused β))
  call : ∀ {inside β M μ ctx scope} {V : Lox.Value} {v : Value} {Vs : List Lox.Value}
    {vs : List Value},
    Meets excused β ctx scope M μ → ValueMatches excused β V v →
    List.Forall₂ (ValueMatches excused β) Vs vs →
    (∃ name, V.signature? = some (name, Vs.length)) →
    Lockstep excused inside β (Lox.Eval.call host nesting V Vs) M (Eval.call host nesting v vs) μ
      (Yields excused ctx scope (ValueMatches excused))
  callFunction : ∀ {inside β M μ ctx scope} {F : Lox.Closure} {f : Closure} {Vs : List Lox.Value}
    {vs : List Value}, Meets excused β ctx scope M μ → ClosureMatches excused β F f →
    List.Forall₂ (ValueMatches excused β) Vs vs → Vs.length = F.declaration.arity →
    Lockstep excused inside β (Lox.Eval.callFunction host nesting F Vs) M
      (Eval.callFunction host nesting f vs) μ (Yields excused ctx scope (ValueMatches excused))
  execute : ∀ {inside β M μ ctx scope} {st : Stmt}, Meets excused β ctx scope M μ →
    st.Scoped excused inside ctx →
    Lockstep excused inside β (Lox.Eval.execute host nesting st) M
      (Eval.execute host nesting scope st) μ
      fun β' M' μ' _ scope' ↦ Meets excused β' (ctx.after st) scope' M' μ'
  executeBlock : ∀ {inside β M μ ctx scope} {body : List Stmt}, Meets excused β ctx scope M μ →
    Stmt.RowScoped excused inside (.names [] :: ctx) body →
    Lockstep excused inside β (Lox.Eval.executeBlock host nesting body) M
      (Eval.executeBlock host nesting scope.names body) μ
      (Yields excused ctx scope fun _ _ _ ↦ True)
  executeFor : ∀ {inside β M μ ctx scope} {initializer : Option Stmt}
    {condition increment : Option Expr} {body : Stmt}, Meets excused β ctx scope M μ →
    (Stmt.forLoop initializer condition increment body).Scoped excused inside ctx →
    Lockstep excused inside β
      (Lox.Eval.executeFor host nesting initializer condition increment body) M
      (Eval.executeFor host nesting scope.names initializer condition increment body) μ
      (Yields excused ctx scope fun _ _ _ ↦ True)

namespace Simulates

/-! ## Expressions -/

theorem evaluate_succ (ih : Simulates excused host nesting) (h : Meets excused β ctx scope M μ)
    (hpending : Awaits ctx pending) {e : Expr} (he : e.Scoped excused ctx pending) :
    Lockstep excused inside β (Lox.Eval.evaluate host (nesting + 1) e) M
      (Eval.evaluate host (nesting + 1) scope.names e) μ
      (Yields excused ctx scope (ValueMatches excused)) := by
  cases he <;> rw [Lox.Eval.evaluate, Eval.evaluate]
  case literal => exact .pure ⟨h, .ofLiteral _⟩
  case group hinner => exact ih.evaluate h hpending hinner
  case unary operator _ hoperand =>
    exact (ih.evaluate h hpending hoperand).bind fun _ _ _ _ _ _ ⟨h₁, hV⟩ ↦
      .ofExcept h₁ (hV.unary operator)
  case binary hleft hright => exact ih.evaluateBinary h hpending hleft hright
  case logical hleft hright =>
    refine (ih.evaluate h hpending hleft).bind fun _ _ _ V v _ ⟨h₁, hV⟩ ↦ ?_
    rw [hV.isTruthy_eq]
    split
    · exact .pure ⟨h₁, hV⟩
    · exact ih.evaluate h₁ hpending hright
  case var hordinary hready hdistance => exact .lookup h hordinary.2 hdistance
  case property _ name hobject =>
    exact (ih.evaluate h hpending hobject).bind fun _ _ _ _ _ _ ⟨h₁, hV⟩ ↦ .property h₁ hV name
  case assign hordinary hready hdistance hvalue =>
    exact ih.evaluateAssignment h hpending (.assign hordinary hready hdistance hvalue)
  case assignPending hr hexcused hdistance hvalue =>
    exact ih.evaluateAssignment h hpending (.assignPending hr hexcused hdistance hvalue)
  case setProperty hobject hvalue => exact ih.evaluatePropertyAssignment h hpending hobject hvalue
  case call hcallee harguments => exact ih.evaluateCall h hpending hcallee harguments
  case self hthis hdistance =>
    exact .lookup h (by rw [hthis]; decide) (by rw [hthis]; exact hdistance)
  case inherited hdistance => exact .inherited h hdistance

theorem evaluateBinary_succ (ih : Simulates excused host nesting)
    (h : Meets excused β ctx scope M μ) (hpending : Awaits ctx pending) {left right : Expr}
    (operator : Token) (hleft : left.Scoped excused ctx pending)
    (hright : right.Scoped excused ctx pending) :
    Lockstep excused inside β (Lox.Eval.evaluateBinary host (nesting + 1) left operator right) M
      (Eval.evaluateBinary host (nesting + 1) scope.names left operator right) μ
      (Yields excused ctx scope (ValueMatches excused)) := by
  rw [Lox.Eval.evaluateBinary, Eval.evaluateBinary]
  refine (ih.evaluate h hpending hleft).bind fun _ _ _ V v _ ⟨h₁, hV⟩ ↦
    (ih.evaluate h₁ hpending hright).bind fun _ _ _ W w hlater ⟨h₂, hW⟩ ↦ ?_
  exact .ofExcept h₂ ((hV.mono hlater.within).binary operator hW)

theorem evaluateAssignment_succ (ih : Simulates excused host nesting)
    (h : Meets excused β ctx scope M μ) (hpending : Awaits ctx pending) {target : Reference}
    {value : Expr} (he : (Expr.assign target value).Scoped excused ctx pending) :
    Lockstep excused inside β (Lox.Eval.evaluateAssignment host (nesting + 1) target value) M
      (Eval.evaluateAssignment host (nesting + 1) scope.names target.name value) μ
      (Yields excused ctx scope (ValueMatches excused)) := by
  rw [Lox.Eval.evaluateAssignment, Eval.evaluateAssignment]
  cases he with
  | assign hordinary _ hdistance hvalue =>
    refine (ih.evaluate h hpending hvalue).bind fun _ _ _ V v _ ⟨h₁, hV⟩ ↦
      (Lockstep.assign h₁ hordinary hdistance hV).bind fun _ _ _ _ _ hlater ⟨h₂, _⟩ ↦ ?_
    exact .pure ⟨h₂, hV.mono hlater.within⟩
  | assignPending hr hexcused hdistance hvalue =>
    refine (ih.evaluate h hpending hvalue).bind fun β₁ M₁ μ₁ V v _ ⟨h₁, hV⟩ ↦ ?_
    obtain ⟨xs, outer, hctx, hx⟩ := hpending _ hr
    exact .lost (bind_of_error (Lockstep.assign_pending h₁ hctx hx hdistance V)) (.refl β₁ M₁)
      h₁.agree ⟨_, rfl, hexcused⟩

theorem evaluatePropertyAssignment_succ (ih : Simulates excused host nesting)
    (h : Meets excused β ctx scope M μ) (hpending : Awaits ctx pending) {object value : Expr}
    (name : Token) (hobject : object.Scoped excused ctx pending)
    (hvalue : value.Scoped excused ctx pending) :
    Lockstep excused inside β
      (Lox.Eval.evaluatePropertyAssignment host (nesting + 1) object name value) M
      (Eval.evaluatePropertyAssignment host (nesting + 1) scope.names object name value) μ
      (Yields excused ctx scope (ValueMatches excused)) := by
  rw [Lox.Eval.evaluatePropertyAssignment, Eval.evaluatePropertyAssignment]
  refine (ih.evaluate h hpending hvalue).bind fun _ _ _ W w _ ⟨h₁, hW⟩ ↦
    (ih.evaluate h₁ hpending hobject).bind fun _ _ _ V v hlater ⟨h₂, hV⟩ ↦ ?_
  refine (Lockstep.setProperty h₂ hV name (hW.mono hlater.within)).bind
    fun _ _ _ _ _ hlater' ⟨h₃, _⟩ ↦ ?_
  exact .pure ⟨h₃, (hW.mono hlater.within).mono hlater'.within⟩

theorem evaluateArguments_succ (ih : Simulates excused host nesting)
    (h : Meets excused β ctx scope M μ) (hpending : Awaits ctx pending) {arguments : List Expr}
    (harguments : ∀ argument ∈ arguments, argument.Scoped excused ctx pending) :
    Lockstep excused inside β (Lox.Eval.evaluateArguments host (nesting + 1) arguments) M
      (Eval.evaluateArguments host (nesting + 1) scope.names arguments) μ
      (Yields excused ctx scope fun β ↦ List.Forall₂ (ValueMatches excused β)) := by
  rw [Lox.Eval.evaluateArguments, Eval.evaluateArguments]
  exact Lockstep.mapM arguments (fun _ _ _ _ hβ hV ↦ hV.mono hβ)
    (fun argument hargument _ _ _ h₁ ↦ ih.evaluate h₁ hpending (harguments argument hargument))
    β M μ h

theorem evaluateCall_succ (ih : Simulates excused host nesting)
    (h : Meets excused β ctx scope M μ) (hpending : Awaits ctx pending) {callee : Expr}
    (paren : Token) {arguments : List Expr} (hcallee : callee.Scoped excused ctx pending)
    (harguments : ∀ argument ∈ arguments, argument.Scoped excused ctx pending) :
    Lockstep excused inside β (Lox.Eval.evaluateCall host (nesting + 1) callee paren arguments) M
      (Eval.evaluateCall host (nesting + 1) scope.names callee paren arguments) μ
      (Yields excused ctx scope (ValueMatches excused)) := by
  rw [Lox.Eval.evaluateCall, Eval.evaluateCall]
  refine (ih.evaluate h hpending hcallee).bind fun _ _ _ V v _ ⟨h₁, hV⟩ ↦
    (ih.evaluateArguments h₁ hpending harguments).bind fun _ _ _ Vs vs hlater ⟨h₂, hVs⟩ ↦ ?_
  have hV₂ := hV.mono hlater.within
  rw [hVs.length_eq]
  refine (Lockstep.checkCall h₂ hV₂ paren vs.length).bind
    fun _ _ _ _ _ hlater' ⟨h₃, hsignature⟩ ↦ ?_
  rw [← hVs.length_eq] at hsignature
  exact ih.call h₃ (hV₂.mono hlater'.within) (hVs.imp fun _ _ hW ↦ hW.mono hlater'.within)
    hsignature

end Simulates

end Lox.Lexical
