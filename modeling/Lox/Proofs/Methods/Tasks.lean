import Lox.Proofs.Methods.Scripts
import Lox.Proofs.Tasks.Conduct

/-!
# Tasks and the frames of methods

Every task is begun at a place that fits the context of the code it is about, and whatever is done
for it, the frames bind `this` and `super` as before. The one statement needs the other: a function
that is called was declared at a place that fits, perhaps long before.
-/

namespace Lox

/-! ## From one place to another -/

namespace Machine.At

variable {H : History} {running : Option Closure} {ctx : Context} {M M' : Machine}

/-- A statement declares an ordinary name. -/
theorem after (h : M.At H running ctx) {inside : Bool} {st : Stmt}
    (hst : st.Scoped anyName inside ctx) : M.At H running (ctx.after st) := by
  have hname : ∀ name, st.declared? = some name → Ordinary name.lexeme := by
    intro name hname
    cases hst with
    | var h | function h | «class» h =>
      obtain rfl := Option.some.inj hname
      exact h
    | _ => cases hname
  rw [Context.after]
  cases hdeclared : st.declared? with
  | none => exact h
  | some name =>
    have hordinary := hname name hdeclared
    exact ⟨h.fits, h.proper.declare hordinary, h.current.declare hordinary, h.around⟩

/-- A frame has been made that binds ordinary names only, and becomes current. -/
theorem enter {env outer : Environment} {b : Bindings Value} {xs : List String}
    (hM' : M.LeadsTo H M') (hframe : env = M.frames.next :: outer ∧ M'.frames = M.frames.push b)
    (hproper : ctx.Proper) (houter : M.frames.Fits ctx outer)
    (haround : M.frames.Around H running outer) (hxs : ∀ x ∈ xs, Ordinary x)
    (hb : ∀ x v, b.get? x = some v → x ∈ xs) :
    ({ M' with current := env } : Machine).At H running (.names xs :: ctx) := by
  obtain ⟨rfl, hpush⟩ := hframe
  have hunbound : ∀ x, ¬ Ordinary x → b.get? x = none := fun x hx ↦ by
    cases hv : b.get? x with
    | none => rfl
    | some v => exact (hx (hxs x (hb x v hv))).elim
  refine ⟨⟨hM'.fits.frames, hM'.fits.objects⟩, .names hxs hproper, ?_, ?_⟩
  · change M'.frames.Fits _ _
    rw [hpush]
    refine houter.push fun x hx ↦ ?_
    rw [hunbound x hx]
    exact (Layer.not_binds_of_not_ordinary hxs hx).symm
  · change M'.frames.Around _ _ _
    rw [hpush]
    exact haround.push (hunbound _ not_ordinary_this)

end Machine.At

namespace Task

open Script (Upholds)

/-- Whatever is done for a task that is begun at a place that fits, the frames bind `this` and
`super` as before. -/
structure Upheld (H : History) (host : Host) (nesting : Nat) : Prop where
  upholds : ∀ {α : Type} (t : Task α) {running : Option Closure} {M : Machine},
    H nesting running ⟨_, t⟩ M → Suited H running ⟨_, t⟩ M →
      (t.run host nesting).Upholds H M (t.AnswerFits H)

section Scripts

variable {H : History} {host : Host} {nesting : Nat} (h : Upheld H host nesting)
  {running : Option Closure} {ctx : Context} {pending : Option String} {inside : Bool} {M : Machine}

include h

theorem Upheld.given {α : Type} {t : Task α} (ht : Suited H running ⟨_, t⟩ M) :
    Upholds H host nesting running (.answer t) M (t.AnswerFits H) :=
  .answer ht fun hH ↦ h.upholds t hH ht

theorem Upheld.evaluate (hM : M.At H running ctx) (hpending : ∀ x ∈ pending, Ordinary x) {e : Expr}
    (he : e.Scoped anyName ctx pending) :
    Upholds H host nesting running (.answer (.evaluate e)) M fun v s ↦ v.Fits H s :=
  h.given (.expressions rfl hM hpending (List.forall_mem_singleton.mpr he))

/-- An expression while no variable is on the way. -/
theorem Upheld.value (hM : M.At H running ctx) {e : Expr} (he : e.Scoped anyName ctx none) :
    Upholds H host nesting running (.answer (.evaluate e)) M fun v s ↦ v.Fits H s :=
  h.evaluate hM (fun _ h ↦ by cases h) he

theorem Upheld.execute (hM : M.At H running ctx) {st : Stmt} (hst : st.Scoped anyName inside ctx) :
    Upholds H host nesting running (.answer (.execute st)) M fun _ _ ↦ True :=
  h.given (.statement rfl hM hst)

/-! ## Expressions -/

theorem Upheld.expression (hM : M.At H running ctx) (hpending : ∀ x ∈ pending, Ordinary x)
    {e : Expr} (he : e.Scoped anyName ctx pending) :
    Upholds H host nesting running e.script M fun v s ↦ v.Fits H s := by
  have hself : ∀ t : Task Value, t.expressions? = some [e] →
      Upholds H host nesting running (.answer t) M (t.AnswerFits H) := fun t ht ↦
    h.given (.expressions ht hM hpending (List.forall_mem_singleton.mpr he))
  rw [Expr.script.eq_def]
  cases he with
  | literal => exact .pure hM.fits (Literal.toValue_fits _)
  | group hinner => exact h.evaluate hM hpending hinner
  | unary hoperand =>
    exact .bind (h.evaluate hM hpending hoperand) fun _ _ hM₁ _ ↦
      .perform (.operator hM₁.fits fun _ ↦ Value.environments_unary)
  | binary => exact hself (.binary ..) rfl
  | logical hleft hright =>
    refine .bind (h.evaluate hM hpending hleft) fun v _ hM₁ hv ↦ ?_
    split
    · exact .pure hM₁.fits hv
    · exact h.evaluate (hM.leadsTo hM₁) hpending hright
  | var => exact .perform (.lookup hM.fits _)
  | property hobject =>
    exact .bind (h.evaluate hM hpending hobject) fun _ _ hM₁ hv ↦
      .perform (.property hM₁.fits _ hv)
  | assign | assignPending => exact hself (.assignment ..) rfl
  | setProperty => exact hself (.propertyAssignment ..) rfl
  | call => exact hself (.invocation ..) rfl
  | self => exact .perform (.lookup hM.fits _)
  | @inherited keyword method hdistance =>
    have hscoped : (Expr.inherited keyword method).Scoped anyName ctx pending :=
      .inherited hdistance
    exact .perform (.inherited hM hscoped)

theorem Upheld.expressions {α : Type} {t : Task α} {es : List Expr}
    (hes : t.expressions? = some es) (hM : M.At H running ctx)
    (hpending : ∀ x ∈ pending, Ordinary x)
    (hscoped : ∀ e ∈ es, e.Scoped anyName ctx pending) :
    Upholds H host nesting (t.function?.or running) (t.script host) M (t.AnswerFits H) := by
  cases t with
  | evaluate e =>
    obtain rfl := Option.some.inj hes
    exact h.expression hM hpending (hscoped e List.mem_cons_self)
  | binary left operator right =>
    obtain rfl := Option.some.inj hes
    cases hscoped _ List.mem_cons_self with
    | binary hleft hright =>
      exact .bind (h.evaluate hM hpending hleft) fun _ _ hM₁ _ ↦
        .bind (h.evaluate (hM.leadsTo hM₁) hpending hright) fun _ _ hM₂ _ ↦
          .perform (.operator hM₂.fits fun _ ↦ Value.environments_binary)
  | assignment target value =>
    obtain rfl := Option.some.inj hes
    -- A variable that is on the way has an ordinary name as well.
    have htarget : Ordinary target.name.lexeme ∧ value.Scoped anyName ctx pending := by
      cases hscoped _ List.mem_cons_self with
      | assign hordinary _ _ hvalue => exact ⟨hordinary, hvalue⟩
      | assignPending hname _ _ hvalue => exact ⟨hpending _ hname, hvalue⟩
    exact .bind (h.evaluate hM hpending htarget.2) fun _ _ hM₁ hv ↦
      .bind (.perform (.assign hM₁.fits htarget.1 hv)) fun _ _ hM₂ _ ↦
        .pure hM₂.fits (hv.mono hM₂.frames)
  | propertyAssignment object name value =>
    obtain rfl := Option.some.inj hes
    cases hscoped _ List.mem_cons_self with
    | setProperty hobject hvalue =>
      exact .bind (h.evaluate hM hpending hvalue) fun _ _ hM₁ hv ↦
        .bind (h.evaluate (hM.leadsTo hM₁) hpending hobject) fun _ _ hM₂ _ ↦
          .bind (.perform (.setProperty hM₂.fits name (hv.mono hM₂.frames))) fun _ _ hM₃ _ ↦
            .pure hM₃.fits (hv.mono (hM₂.trans hM₃).frames)
  | invocation callee paren items =>
    obtain rfl := Option.some.inj hes
    cases hscoped _ List.mem_cons_self with
    | call hcallee hitems =>
      refine .bind (h.evaluate hM hpending hcallee) fun f M₁ hM₁ hf ↦ ?_
      refine .bind (h.given (.expressions rfl (hM.leadsTo hM₁) hpending hitems))
        fun vs M₂ hM₂ hvs ↦ ?_
      refine .bind (.perform (.checkCall hM₂.fits f paren vs.length)) fun _ M₃ hM₃ _ ↦ ?_
      exact h.given (.call (hM.leadsTo (hM₁.trans (hM₂.trans hM₃))) (hf.mono (hM₂.trans hM₃).frames)
        fun v hv ↦ (hvs v hv).mono hM₃.frames)
  | arguments items =>
    obtain rfl := Option.some.inj hes
    exact .each hM.fits fun e he M' hM' ↦ h.evaluate (hM.leadsTo hM') hpending (hscoped e he)
  | _ => cases hes

/-! ## Statements -/

theorem Upheld.loopRound (hM : M.At H running ctx) {condition : Expr} {body : Stmt}
    (hcondition : condition.Scoped anyName ctx none) (hbody : body.Scoped anyName inside ctx) :
    Upholds H host nesting running (loopRound condition body) M fun _ _ ↦ True := by
  refine .bind (h.value hM hcondition) fun _ _ hM₁ _ ↦ ?_
  split
  · exact .bind (h.execute (hM.leadsTo hM₁) hbody) fun _ _ hM₂ _ ↦ .pure hM₂.fits trivial
  · exact .pure hM₁.fits trivial

theorem Upheld.forRound (hM : M.At H running ctx) {condition increment : Option Expr} {body : Stmt}
    (hcondition : ∀ e ∈ condition, e.Scoped anyName ctx none)
    (hincrement : ∀ e ∈ increment, e.Scoped anyName ctx none)
    (hbody : body.Scoped anyName inside ctx) :
    Upholds H host nesting running (forRound condition increment body) M fun _ _ ↦ True := by
  rw [Lox.forRound.eq_def]
  refine .bind (P := fun _ _ ↦ True) ?_ fun _ _ hM₁ _ ↦ ?_
  · cases condition with
    | none => exact .pure hM.fits trivial
    | some e =>
      exact .bind (h.value hM (hcondition e rfl)) fun _ _ hM₁ _ ↦ .pure hM₁.fits trivial
  split
  · refine .bind (h.execute (hM.leadsTo hM₁) hbody) fun _ _ hM₂ _ ↦ ?_
    cases increment with
    | none => exact .pure hM₂.fits trivial
    | some e =>
      exact .bind (h.value (hM.leadsTo (hM₁.trans hM₂)) (hincrement e rfl)) fun _ _ hM₃ _ ↦
        .pure hM₃.fits trivial
  · exact .pure hM₁.fits trivial

/-- What a statement does once it has been counted. What it declares comes from the moment at which
the statement was begun. -/
theorem Upheld.statement (hM : M.At H running ctx) {st : Stmt} (hst : st.Scoped anyName inside ctx)
    {M₀ : Machine} {outer : Nat} (hH : H outer running ⟨_, .execute st⟩ M₀)
    (hframes : M₀.frames = M.frames) (hcurrent : M₀.current = M.current) :
    Upholds H host nesting running (st.script host) M fun _ _ ↦ True := by
  have hself : ∀ t : Task Unit, t.statement? = some st →
      Upholds H host nesting running (.answer t) M (t.AnswerFits H) := fun t ht ↦
    h.given (.statement ht hM hst)
  rw [Stmt.script.eq_def]
  cases hst with
  | expression hvalue => exact .bind (h.value hM hvalue) fun _ _ hM₁ _ ↦ .pure hM₁.fits trivial
  | print hvalue => exact .bind (h.value hM hvalue) fun _ _ hM₁ _ ↦ .perform (.printLine hM₁.fits _)
  | @var _ _ name initializer hname _ hinitializer =>
    cases initializer with
    | none => exact .perform (.define hM.fits hname trivial)
    | some e =>
      have hpending : ∀ x ∈ ctx.awaiting name.lexeme, Ordinary x := by
        intro x hx
        cases ctx with
        | nil => cases hx
        | cons =>
          obtain rfl := Option.some.inj hx
          exact hname
      exact .bind (h.evaluate hM hpending (hinitializer e rfl)) fun _ _ hM₁ hv ↦
        .perform (.define hM₁.fits hname hv)
  | block => exact hself (.block ..) rfl
  | @branch _ _ condition yes no hcondition hyes _ hno =>
    refine .bind (h.value hM hcondition) fun _ _ hM₁ _ ↦ ?_
    split
    · exact h.execute (hM.leadsTo hM₁) hyes
    · cases no with
      | none => exact .pure hM₁.fits trivial
      | some no => exact h.execute (hM.leadsTo hM₁) (hno no rfl)
  | loop hcondition hbody =>
    exact .repeatWhile hM.fits
      (fun M' hM' ↦ h.loopRound (hM.leadsTo hM') hcondition hbody) host.rounds
  | forLoop => exact hself (.forLoop ..) rfl
  | function hname _ hscoped =>
    have haround : M.frames.Around H running M₀.current := hcurrent ▸ hM.around
    have hknown : ∀ id, Closure.Known H M.frames ⟨id, _, M.current⟩ := fun id ↦
      haround.known hH hcurrent.symm
    exact .perform (.get_bind (.bind
      (.newFunction hM.fits hknown (hM.proper.declare hname) (hM.current.declare hname) hscoped)
      fun _ _ hM₁ hf ↦ .define hM₁.fits hname hf))
  | @«return» _ _ value hvalue =>
    cases value with
    | none => exact .perform (.throw hM.fits trivial)
    | some e =>
      exact .bind (h.value hM (hvalue e rfl)) fun _ _ hM₁ hv ↦ .perform (.throw hM₁.fits hv)
  | @«class» _ _ name superclass methods hname _ _ hmethods =>
    cases superclass with
    | none =>
      refine .perform (.defineClass hM hname (fun c hc hmethods henv hparent ↦ ?_)
        (fun _ h ↦ by cases h) hmethods)
      exact ⟨_, _, _, _, _, _, hH, hc, hmethods, by rw [henv, hframes, hcurrent], hparent⟩
    | some r =>
      refine .bind (.perform (.superclass hM.fits r)) fun parent M₁ hM₁ hr ↦ ?_
      obtain ⟨hfits, hs, hlookup⟩ := hr
      refine .perform (.defineClass (hM.leadsTo hM₁) hname (fun c hc hmethods henv hparent ↦ ?_) ?_
        hmethods)
      · refine ⟨_, _, _, _, _, _, hH, hc, hmethods, ?_, parent,
          Eval.lookup_of_eq hframes hcurrent hlookup, hparent⟩
        rw [henv, hs, hM₁.current, hframes, hcurrent]
      · rintro _ ⟨⟩
        exact hfits

theorem Upheld.row (hM : M.At H running ctx) {body : List Stmt}
    (hbody : Stmt.RowScoped anyName inside ctx body) :
    Upholds H host nesting running (body.forM fun st ↦ Script.answer (.execute st)) M
      fun _ _ ↦ True := by
  induction body generalizing ctx M with
  | nil => exact .pure hM.fits trivial
  | cons st body ih =>
    cases hbody with
    | cons hst hrest =>
      exact .bind (h.execute hM hst) fun _ _ hM₁ _ ↦ ih ((hM.leadsTo hM₁).after hst) hrest

omit h in
/-- Something is done in a new scope. -/
theorem upholds_scope (hM : M.At H running ctx) {s : Script Unit}
    (hs : ∀ M', M'.At H running (.names [] :: ctx) →
      Upholds H host nesting running s M' fun _ _ ↦ True) :
    Upholds H host nesting running (do
      let m ← Script.perform get
      let env ← Script.perform (Eval.newFrame m.current .empty)
      Script.enclose env s) M fun _ _ ↦ True :=
  .get_bind (.bind (.perform (.newFrame hM.fits fun _ _ h ↦ by cases h)) fun _ _ hM₁ hframe ↦
    .enclose (hs _ (.enter hM₁ hframe hM.proper hM.current hM.around (List.forall_mem_nil _)
      fun _ _ h ↦ by cases h)))

theorem Upheld.statements {α : Type} {t : Task α} {st : Stmt} (hst : t.statement? = some st)
    (hH : H (nesting + 1) running ⟨_, t⟩ M) (hM : M.At H running ctx)
    (hscoped : st.Scoped anyName inside ctx) :
    Upholds H host nesting (t.function?.or running) (t.script host) M (t.AnswerFits H) := by
  cases t with
  | execute st =>
    obtain rfl := Option.some.inj hst
    exact .bind (.perform (.step hM.fits host)) fun _ _ hM₁ hs ↦
      h.statement (hM.leadsTo hM₁) hscoped hH hs.symm hM₁.current.symm
  | block body =>
    obtain rfl := Option.some.inj hst
    cases hscoped with
    | block hbody => exact upholds_scope hM fun _ hM' ↦ h.row hM' hbody
  | forLoop initializer condition increment body =>
    obtain rfl := Option.some.inj hst
    cases hscoped with
    | @forLoop _ _ inner _ _ _ _ hinitializer hinner hcondition hincrement hbody =>
      refine upholds_scope hM fun M' hM' ↦ ?_
      have hrounds : ∀ {M₁ : Machine}, M₁.At H running inner → Upholds H host nesting running
          (Script.repeatWhile (Lox.forRound condition increment body) host.rounds) M₁
          fun _ _ ↦ True := fun hM₁ ↦ .repeatWhile hM₁.fits
        (fun M₂ hM₂ ↦ h.forRound (hM₁.leadsTo hM₂) hcondition hincrement hbody) host.rounds
      subst hinner
      cases initializer with
      | none => exact hrounds hM'
      | some st =>
        exact .bind (h.execute hM' (hinitializer st rfl)) fun _ _ hM₁ _ ↦
          hrounds ((hM'.leadsTo hM₁).after (hinitializer st rfl))
  | _ => cases hst

/-! ## Calls -/

theorem Upheld.callScript (hM : M.At H running ctx) {callee : Value} {vs : List Value}
    (hcallee : callee.Fits H M.frames) (hvs : ∀ v ∈ vs, v.Fits H M.frames) :
    Upholds H host nesting running (callee.script host vs) M fun v s ↦ v.Fits H s := by
  cases callee with
  | native n => exact .perform (.callNative hM.fits host n vs)
  | function f => exact h.given (.callFunction hM hcallee hvs)
  | «class» c =>
    refine .bind (.perform (.newInstance hM.fits c)) fun i M₁ hM₁ ⟨hclass, hs⟩ ↦ ?_
    have hi : Value.Fits H M₁.frames (.instance i) := by
      rw [Value.Fits, hclass, hs]
      exact hcallee
    cases hmethod : c.findMethod? initializerName with
    | some method =>
      refine .bind (.perform (.bindMethod hM₁.fits hi (fun _ hd ↦ hclass ▸ hd) hmethod))
        fun f M₂ hM₂ hf ↦ ?_
      have hvs₂ : ∀ v ∈ vs, v.Fits H M₂.frames := fun v hv ↦ (hvs v hv).mono (hM₁.trans hM₂).frames
      exact .bind (h.given (.call (hM.leadsTo (hM₁.trans hM₂)) hf hvs₂)) fun _ M₃ hM₃ _ ↦
        .pure hM₃.fits (Value.Fits.mono hi (hM₂.trans hM₃).frames)
    | none => exact .pure hM₁.fits hi
  | nil | bool _ | number _ | string _ | «instance» _ => exact .perform (.throw hM.fits trivial)

/-- The body of a function is entered through one frame, which binds its parameters. -/
theorem Upheld.callFunctionScript (hM : M.At H running ctx) {f : Closure} {vs : List Value}
    (hf : f.Fits H M.frames) (hvs : ∀ v ∈ vs, v.Fits H M.frames) :
    Upholds H host nesting (some f) ((callFunction f vs).script host) M fun v s ↦ v.Fits H s := by
  obtain ⟨ctx, hproper, henv, hscoped⟩ := hf.resolved
  rw [script]
  generalize f.declaration = declaration at hscoped ⊢
  cases hscoped with
  | @mk _ name parameters body hnodup hordinary hbody hplain =>
    have hzip : ∀ {x v}, (Bindings.ofList ((parameters.map Token.lexeme).zip vs)).get? x = some v →
        x ∈ parameters.map Token.lexeme ∧ v ∈ vs := fun hv ↦
      List.of_mem_zip (Bindings.mem_of_get?_ofList hv)
    refine .bind (.perform (.newFrame hM.fits fun x v hv ↦ hvs v (hzip hv).2))
      fun env M₁ hM₁ hframe ↦ .body (.enclose (h.execute ?_ hbody))
    exact .enter hM₁ hframe hproper henv (.inside hf (.refl _ _))
      (List.forall_mem_map.mpr hordinary) fun x v hv ↦ (hzip hv).1

/-! ## Tasks -/

theorem Upheld.script {α : Type} {t : Task α} (hH : H (nesting + 1) running ⟨_, t⟩ M)
    (ht : Suited H running ⟨_, t⟩ M) :
    Upholds H host nesting (t.function?.or running) (t.script host) M (t.AnswerFits H) := by
  cases ht with
  | expressions hes hM hpending hscoped => exact h.expressions hes hM hpending hscoped
  | statement hst hM hscoped => exact h.statements hst hH hM hscoped
  | call hM hcallee hvs => exact h.callScript hM hcallee hvs
  | callFunction hM hf hvs => exact h.callFunctionScript hM hf hvs

end Scripts

/-- By induction on the number of nested calls. What a task asks for is told of as well, with one
nested call less. -/
theorem upheld_run {H : History} {host : Host} (hclosed : H.Closed host) (nesting : Nat) :
    Upheld H host nesting := by
  induction nesting with
  | zero =>
    refine ⟨fun t _ _ _ ht ↦ ?_⟩
    obtain ⟨ctx, hM⟩ := ht.exists_at
    rw [run_zero]
    exact .throw hM.fits trivial
  | succ nesting ih =>
    refine ⟨fun t _ _ hH ht ↦ ?_⟩
    rw [run_succ]
    exact (ih.script hH ht fun t' M' hasks ↦ hclosed _ _ _ _ t' M' hH hasks).2

end Task

end Lox
