import Lox.Proofs.Lexical.Simulation.Call

/-!
# Executing statements in lockstep

Statements are where names come into being, so here the context changes from one place to the next.
Once every function of the evaluator is dealt with, whatever is evaluated or executed goes in
lockstep, by induction on the number of nested calls.
-/

namespace Lox.Lexical

variable {excused : String → Prop} {β : Placement} {M : Lox.Machine} {μ : Machine} {ctx : Context}
  {scope : Scope} {host : Host} {nesting : Nat} {inside : Bool}

/-- A variable that is on the way is new where it is declared. -/
theorem awaits_awaiting (hopen : ctx.IsOpen) {x : String} (hadmits : ctx.Admits x) :
    Awaits ctx (ctx.awaiting x) := by
  intro y hy
  match ctx, hopen with
  | [], _ => cases hy
  | .names xs :: outer, _ =>
    obtain rfl : x = y := Option.some.inj hy
    exact ⟨xs, outer, rfl, hadmits⟩

namespace Simulates

/-! ## Statements -/

/-- A statement that declares nothing leaves the names in scope as they are. -/
theorem executePlain (ih : Simulates excused host nesting) (h : Meets excused β ctx scope M μ)
    {st : Stmt} (hst : st.Scoped excused inside ctx) (hplain : st.declared? = none) :
    Lockstep excused inside β (Lox.Eval.execute host nesting st) M
      (Eval.execute host nesting scope st) μ
      (Yields excused ctx scope fun _ _ _ ↦ True) := by
  refine (ih.execute h hst).mono fun β' M' μ' _ scope' hlater h' ↦ ⟨?_, trivial⟩
  rw [Context.after_eq_self hplain] at h'
  have hscope : scope' = scope := by
    rw [h'.scope, hlater.current, h.placed.scope_eq hlater.within, h.scope]
  exact hscope ▸ h'

theorem execute_succ (ih : Simulates excused host nesting) (h : Meets excused β ctx scope M μ)
    {st : Stmt} (hst : st.Scoped excused inside ctx) :
    Lockstep excused inside β (Lox.Eval.execute host (nesting + 1) st) M
      (Eval.execute host (nesting + 1) scope st) μ
      fun β' M' μ' _ scope' ↦ Meets excused β' (ctx.after st) scope' M' μ' := by
  rw [Lox.Eval.execute.eq_def, Eval.execute.eq_def]
  refine (Lockstep.step h host).bind fun β M μ _ _ _ ⟨h, _⟩ ↦ ?_
  cases hst with
  | expression hvalue =>
    exact (ih.evaluate h (awaits_none _) hvalue).bind fun _ _ _ _ _ _ ⟨h₁, _⟩ ↦ .pure h₁
  | print hvalue =>
    refine (ih.evaluate h (awaits_none _) hvalue).bind fun _ _ _ V v _ ⟨h₁, hV⟩ ↦ ?_
    rw [hV.text_eq]
    exact (Lockstep.printLine h₁ v.text).andReturn fun _ _ _ _ _ ⟨h₂, _⟩ ↦ h₂
  | @var _ _ name initializer hname hadmits hinitializer =>
    have hdeclare : ∀ {β₁ M₁ μ₁ V v}, Meets excused β₁ ctx scope M₁ μ₁ →
        ValueMatches excused β₁ V v →
        Lockstep excused inside β₁ (Lox.Eval.define name.lexeme V) M₁
          (Eval.declare scope name.lexeme fun _ ↦ v) μ₁
          fun β' M' μ' _ scope' ↦ Meets excused β' (ctx.declare name.lexeme) scope' M' μ' :=
      fun h₁ hV ↦ .declare h₁ hname hadmits fun β' hβ' _ ↦ hV.mono hβ'
    -- While its initializer is evaluated, a local variable is on the way.
    cases initializer with
    | none => exact hdeclare h .nil
    | some e =>
      exact (ih.evaluate h (awaits_awaiting h.isOpen hadmits) (hinitializer e rfl)).bind
        fun _ _ _ _ _ _ ⟨h₁, hV⟩ ↦ hdeclare h₁ hV
  | block hbody => exact (ih.executeBlock h hbody).andReturn fun _ _ _ _ _ ⟨h₁, _⟩ ↦ h₁
  | @branch _ _ condition yes no hcondition hyes hyesPlain hno hnoPlain =>
    refine (ih.evaluate h (awaits_none _) hcondition).bind fun _ _ _ V v _ ⟨h₁, hV⟩ ↦ ?_
    rw [hV.isTruthy_eq]
    cases v.isTruthy with
    | true =>
      exact (ih.executePlain h₁ hyes hyesPlain).andReturn fun _ _ _ _ _ ⟨h₂, _⟩ ↦ h₂
    | false =>
      cases no with
      | some no =>
        exact (ih.executePlain h₁ (hno no rfl) (hnoPlain no rfl)).andReturn
          fun _ _ _ _ _ ⟨h₂, _⟩ ↦ h₂
      | none => exact .pure h₁
  | @loop _ _ condition body hcondition hbody hplain =>
    refine (Lockstep.repeatWhile ?_ host.rounds _ _ _ h).andReturn fun _ _ _ _ _ ⟨h₁, _⟩ ↦ h₁
    intro β₁ M₁ μ₁ h₁
    refine (ih.evaluate h₁ (awaits_none _) hcondition).bind fun _ _ _ V v _ ⟨h₂, hV⟩ ↦ ?_
    rw [hV.isTruthy_eq]
    cases v.isTruthy with
    | true =>
      exact (ih.executePlain h₂ hbody hplain).bind fun _ _ _ _ _ _ ⟨h₃, _⟩ ↦ .pure ⟨h₃, rfl⟩
    | false => exact .pure ⟨h₂, rfl⟩
  | forLoop hinitializer hinner hcondition hincrement hbody hplain =>
    have hloop := Stmt.Scoped.forLoop hinitializer hinner hcondition hincrement hbody hplain
    exact (ih.executeFor h hloop).andReturn fun _ _ _ _ _ ⟨h₁, _⟩ ↦ h₁
  | @function _ _ f hname hadmits hf =>
    have hnew : Lockstep excused inside β (Lox.Eval.newFunction f M.current) M Eval.newId μ
        (Yields excused ctx scope fun _ F id ↦ F = ⟨id, f, M.current⟩) := by
      refine .of_eq h rfl rfl { h.agree with nextId := congrArg (· + 1) h.agree.nextId }
        (Nat.le_refl _) rfl ?_
      rw [h.agree.nextId]
    refine .look (hnew.bind ?_)
    -- A function sees its own name, so it is matched in the context behind the declaration.
    rintro β₁ M₁ μ₁ _ id hlater ⟨h₁, rfl⟩
    refine .declare h₁ hname hadmits fun β' hβ' hplaced ↦ .function ⟨rfl, rfl, ?_⟩
    rw [hlater.current] at hplaced ⊢
    exact ⟨_, h.proper.declare hname, hplaced, hf, rfl⟩
  | @«return» _ _ value hvalue =>
    cases value with
    | none => exact .throw h.agree (.returning .nil)
    | some e =>
      exact (ih.evaluate h (awaits_none _) (hvalue e rfl)).bind
        fun _ _ _ _ _ _ ⟨h₁, hV⟩ ↦ .throw h₁.agree (.returning hV)
  | @«class» _ _ name superclass methods hname hadmits hsuperclass hmethods =>
    cases superclass with
    | none => exact .defineClass h .none hname hadmits hmethods
    | some r =>
      obtain ⟨hr, -, hdistance⟩ := hsuperclass r rfl
      have hparent : Lockstep excused inside β (some <$> Lox.Eval.superclass r) M
          (some <$> Eval.superclass scope.names r.name) μ (Yields excused ctx scope fun β C c ↦
            Option.Rel (ClassMatches excused β) C c ∧ C.isSome = true) :=
        (Lockstep.superclass h hr.2 hdistance).map fun _ _ _ _ _ ⟨h₁, hC⟩ ↦ ⟨h₁, .some hC, rfl⟩
      refine hparent.bind fun β₁ M₁ μ₁ C c _ ⟨h₁, hC, hsome⟩ ↦ ?_
      exact .defineClass h₁ hC hname hadmits (by rw [hsome]; exact hmethods)

/-! ## Rows of statements -/

theorem row (ih : Simulates excused host nesting) {body : List Stmt} :
    ∀ {β M μ ctx scope}, Meets excused β ctx scope M μ →
      Stmt.RowScoped excused inside ctx body →
      Lockstep excused inside β (body.forM (Lox.Eval.execute host nesting)) M
        (body.foldlM (Eval.execute host nesting) scope) μ
        fun β' M' μ' _ scope' ↦ Meets excused β' (body.foldl Context.after ctx) scope' M' μ' := by
  induction body with
  | nil => exact fun h _ ↦ .pure h
  | cons st body ih' =>
    rintro β M μ ctx scope h (_ | ⟨hst, hrest⟩)
    rw [List.foldlM_cons, List.foldl_cons]
    exact (ih.execute h hst).bind fun _ _ _ _ _ _ h₁ ↦ ih' h₁ hrest

theorem executeBlock_succ (ih : Simulates excused host nesting)
    (h : Meets excused β ctx scope M μ) {body : List Stmt}
    (hbody : Stmt.RowScoped excused inside (.names [] :: ctx) body) :
    Lockstep excused inside β (Lox.Eval.executeBlock host (nesting + 1) body) M
      (Eval.executeBlock host (nesting + 1) scope.names body) μ
      (Yields excused ctx scope fun _ _ _ ↦ True) := by
  rw [Lox.Eval.executeBlock, Eval.executeBlock]
  refine .look (Lockstep.enclosed h (fun _ _ ↦ rfl) rfl ?_)
  refine (ih.row ?_ hbody).andReturn fun _ _ _ _ _ h₁ ↦ ⟨h₁.agree, trivial⟩
  exact .enter h.agree h.proper h.placed (Lockstep.names_eq h)

/-- The rounds of a for statement, once its variable is declared. -/
theorem rounds (ih : Simulates excused host nesting) (h : Meets excused β ctx scope M μ)
    {condition increment : Option Expr} {body : Stmt} :
    (∀ e ∈ condition, e.Scoped excused ctx none) → (∀ e ∈ increment, e.Scoped excused ctx none) →
    body.Scoped excused inside ctx → body.declared? = none →
    Lockstep excused inside β
      (Lox.Eval.repeatWhile (do
        if ← (match condition with
          | some e => do return (← Lox.Eval.evaluate host nesting e).isTruthy
          | none => return true : Lox.Eval Bool) then
          Lox.Eval.execute host nesting body
          if let some e := increment then
            let _ ← Lox.Eval.evaluate host nesting e
          return true
        else return false) host.rounds) M
      (Eval.repeatWhile (do
        if ← (match condition with
          | some e => do return (← Eval.evaluate host nesting scope.names e).isTruthy
          | none => return true : Eval Bool) then
          let _ ← Eval.execute host nesting scope body
          if let some e := increment then
            let _ ← Eval.evaluate host nesting scope.names e
          return true
        else return false) host.rounds) μ (Yields excused ctx scope fun _ _ _ ↦ True) := by
  intro hcondition hincrement hbody hplain
  refine Lockstep.repeatWhile ?_ host.rounds β M μ h
  intro β₁ M₁ μ₁ h₁
  refine Lockstep.bind (?_ : Lockstep excused inside β₁ _ M₁ _ μ₁
    (Yields excused ctx scope fun _ b b' ↦ b = b')) ?_
  · cases condition with
    | none => exact .pure ⟨h₁, rfl⟩
    | some e =>
      exact (ih.evaluate h₁ (awaits_none _) (hcondition e rfl)).bind
        fun _ _ _ _ _ _ ⟨h₂, hV⟩ ↦ .pure ⟨h₂, hV.isTruthy_eq⟩
  · rintro β₂ M₂ μ₂ holds _ - ⟨h₂, rfl⟩
    cases holds with
    | false => exact .pure ⟨h₂, rfl⟩
    | true =>
      refine (ih.executePlain h₂ hbody hplain).bind fun _ _ _ _ _ _ ⟨h₃, _⟩ ↦ ?_
      cases increment with
      | none => exact .pure ⟨h₃, rfl⟩
      | some e =>
        exact (ih.evaluate h₃ (awaits_none _) (hincrement e rfl)).bind
          fun _ _ _ _ _ _ ⟨h₄, _⟩ ↦ .pure ⟨h₄, rfl⟩

theorem executeFor_succ (ih : Simulates excused host nesting) (h : Meets excused β ctx scope M μ)
    {initializer : Option Stmt} {condition increment : Option Expr} {body : Stmt}
    (hst : (Stmt.forLoop initializer condition increment body).Scoped excused inside ctx) :
    Lockstep excused inside β
      (Lox.Eval.executeFor host (nesting + 1) initializer condition increment body) M
      (Eval.executeFor host (nesting + 1) scope.names initializer condition increment body) μ
      (Yields excused ctx scope fun _ _ _ ↦ True) := by
  rw [Lox.Eval.executeFor.eq_def, Eval.executeFor.eq_def]
  refine .look (Lockstep.enclosed h (fun _ _ ↦ rfl) rfl ?_)
  have henter : Meets excused β (.names [] :: ctx) (.within scope.names) _ μ :=
    .enter h.agree h.proper h.placed (Lockstep.names_eq h)
  cases hst with
  | forLoop hinitializer hinner hcondition hincrement hbody hplain =>
    subst hinner
    cases initializer with
    | none =>
      exact (ih.rounds henter hcondition hincrement hbody hplain).mono
        fun _ _ _ _ _ _ ⟨h₁, _⟩ ↦ ⟨h₁.agree, trivial⟩
    | some st =>
      refine (ih.execute henter (hinitializer st rfl)).bind fun β₁ M₁ μ₁ _ scope₁ _ h₁ ↦ ?_
      exact (ih.rounds h₁ hcondition hincrement hbody hplain).mono
        fun _ _ _ _ _ _ ⟨h₂, _⟩ ↦ ⟨h₂.agree, trivial⟩

end Simulates

/-! ## Everything -/

/-- Whatever the number of nested calls, the evaluator goes in lockstep with the lexical
semantics. -/
theorem simulates (excused : String → Prop) (host : Host) (nesting : Nat) :
    Simulates excused host nesting := by
  induction nesting with
  | zero =>
    exact {
      evaluate := fun h _ _ ↦ .overflow h.agree
      evaluateBinary := fun h _ _ _ ↦ .overflow h.agree
      evaluateAssignment := fun h _ _ ↦ .overflow h.agree
      evaluatePropertyAssignment := fun h _ _ _ ↦ .overflow h.agree
      evaluateCall := fun h _ _ _ ↦ .overflow h.agree
      evaluateArguments := fun h _ _ ↦ .overflow h.agree
      call := fun h _ _ _ ↦ .overflow h.agree
      callFunction := fun h _ _ _ ↦ .overflow h.agree
      execute := fun h _ ↦ .overflow h.agree
      executeBlock := fun h _ ↦ .overflow h.agree
      executeFor := fun h _ ↦ .overflow h.agree }
  | succ nesting ih =>
    exact {
      evaluate := fun h hpending he ↦ ih.evaluate_succ h hpending he
      evaluateBinary := fun h hpending hleft hright ↦
        ih.evaluateBinary_succ h hpending _ hleft hright
      evaluateAssignment := fun h hpending he ↦ ih.evaluateAssignment_succ h hpending he
      evaluatePropertyAssignment := fun h hpending hobject hvalue ↦
        ih.evaluatePropertyAssignment_succ h hpending _ hobject hvalue
      evaluateCall := fun h hpending hcallee harguments ↦
        ih.evaluateCall_succ h hpending _ hcallee harguments
      evaluateArguments := fun h hpending harguments ↦
        ih.evaluateArguments_succ h hpending harguments
      call := fun h hV hVs hsignature ↦ ih.call_succ h hV hVs hsignature
      callFunction := fun h hF hVs harity ↦ ih.callFunction_succ h hF hVs harity
      execute := fun h hst ↦ ih.execute_succ h hst
      executeBlock := fun h hbody ↦ ih.executeBlock_succ h hbody
      executeFor := fun h hst ↦ ih.executeFor_succ h hst }

end Lox.Lexical
