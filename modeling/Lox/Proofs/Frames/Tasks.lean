import Lox.Proofs.Frames.Scripts
import Lox.Proofs.Methods.Tasks

/-!
# Tasks on a chart

Blocks, loops and calls make frames for their scopes, and those are what the chart says of them: the
task that makes a frame is in the history. What is executed in such a scope declares the names that
the scope admits. Where a statement is a part of another one but in no scope of its own, it is no
declaration.

It is known of all tasks of the history that their names are resolved. So only what comes on top of
that is carried along here.
-/

namespace Lox

theorem Stmt.mem_declares {st : Stmt} {name : Token} (h : st.declared? = some name) :
    name.lexeme ∈ st.declares := by
  cases st with
  | var | function | «class» =>
    cases h
    exact List.mem_singleton_self _
  | _ => cases h

theorem Eval.frames_of_step {host : Host} {M M' : Machine} (h : step host M = .ok () M') :
    M'.frames = M.frames := by
  have hends : Ends (step host) M (fun _ M' ↦ M'.frames = M.frames) fun _ _ ↦ True :=
    ends_step rfl fun _ ↦ trivial
  exact hends.of_ok h

/-- What names a superclass has been looked up, and nothing else has happened. -/
theorem Eval.lookup_of_superclass {r : Reference} {c : Class} {M M' : Machine}
    (h : superclass r M = .ok c M') : M' = M ∧ lookup r M = .ok (.class c) M := by
  obtain ⟨v, M₁, hlookup, h⟩ := bind_eq_ok h
  obtain rfl := eq_of_lookup hlookup
  cases v with
  | «class» d =>
    cases h
    exact ⟨rfl, hlookup⟩
  | _ => cases h

namespace Task

open Script (Charts)

/-- Tasks that the history tells of are done on a chart. -/
structure Charted (H : History) (host : Host) (nesting : Nat) : Prop where
  charts : ∀ {α : Type} (t : Task α) {running : Option Closure} {chart : Chart} {M : Machine},
    H nesting running ⟨_, t⟩ M → M.Charted H chart → t.Ready chart M.current →
      (t.run host nesting).Charts H chart M fun chart a ↦ t.AnswerCharted chart a

section Scripts

variable {H : History} {host : Host} {nesting : Nat} (h : Charted H host nesting)
  {running : Option Closure} {chart : Chart} {ctx : Context} {inside : Bool} {M : Machine}

include h

theorem Charted.given {α : Type} {t : Task α} (hM : M.Charted H chart)
    (ht : t.Ready chart M.current) :
    Charts H host nesting running chart (.answer t) M fun chart a ↦ t.AnswerCharted chart a :=
  .answer hM ht fun hH ↦ h.charts t hH hM ht

theorem Charted.evaluate (hM : M.Charted H chart) (e : Expr) :
    Charts H host nesting running chart (.answer (.evaluate e)) M fun chart v ↦ v.Charted chart :=
  h.given hM trivial

theorem Charted.execute (hM : M.Charted H chart) {st : Stmt}
    (hst : ∀ name ∈ st.declared?, chart.Declares M.current name.lexeme) :
    Charts H host nesting running chart (.answer (.execute st)) M fun _ _ ↦ True :=
  h.given hM hst

/-- A statement is executed that declares nothing. -/
theorem Charted.executePlain (hM : M.Charted H chart) {st : Stmt} (hst : st.declared? = none) :
    Charts H host nesting running chart (.answer (.execute st)) M fun _ _ ↦ True :=
  h.execute hM fun name hname ↦ by
    rw [hst] at hname
    cases hname

/-! ## Expressions -/

theorem Charted.expression (hM : M.Charted H chart) (e : Expr) :
    Charts H host nesting running chart e.script M fun chart v ↦ v.Charted chart := by
  cases e with
  | literal value => exact .pure hM (Literal.toValue_charted value)
  | group inner => exact h.evaluate hM inner
  | unary operator operand =>
    exact .bind (h.evaluate hM operand) fun _ _ _ _ _ hM _ ↦
      .perform (.operator hM fun _ ↦ Value.environments_unary)
  | binary left operator right | assign target value | setProperty object name value
  | call callee paren items => exact h.given hM trivial
  | logical left operator right =>
    refine .bind (h.evaluate hM left) fun _ v _ _ _ hM hv ↦ ?_
    split
    · exact .pure hM hv
    · exact h.evaluate hM right
  | var target => exact .perform (.lookup hM target)
  | property object name =>
    exact .bind (h.evaluate hM object) fun _ _ _ _ _ hM hv ↦ .perform (.property hM name hv)
  | self keyword => exact .perform (.lookup hM keyword)
  | inherited keyword method => exact .perform (.inherited hM keyword method)

/-! ## Statements -/

theorem Charted.loopRound (hM : M.Charted H chart) (condition : Expr) {body : Stmt}
    (hbody : body.declared? = none) :
    Charts H host nesting running chart (loopRound condition body) M fun _ _ ↦ True := by
  refine .bind (h.evaluate hM condition) fun _ v _ _ _ hM _ ↦ ?_
  split
  · exact .bind (h.executePlain hM hbody) fun _ _ _ _ _ hM _ ↦ .pure hM trivial
  · exact .pure hM trivial

theorem Charted.forRound (hM : M.Charted H chart) (condition increment : Option Expr) {body : Stmt}
    (hbody : body.declared? = none) :
    Charts H host nesting running chart (forRound condition increment body) M fun _ _ ↦ True := by
  rw [Lox.forRound.eq_def]
  refine .bind (P := fun _ _ ↦ True) ?_ fun _ holds _ _ _ hM _ ↦ ?_
  · cases condition with
    | none => exact .pure hM trivial
    | some e => exact .bind (h.evaluate hM e) fun _ _ _ _ _ hM _ ↦ .pure hM trivial
  split
  · refine .bind (h.executePlain hM hbody) fun _ _ _ _ _ hM _ ↦ ?_
    cases increment with
    | none => exact .pure hM trivial
    | some e => exact .bind (h.evaluate hM e) fun _ _ _ _ _ hM _ ↦ .pure hM trivial
  · exact .pure hM trivial

/-- What a statement does once it has been counted. A class comes from the moment at which its
declaration was begun. -/
theorem Charted.statement (hM : M.Charted H chart) {st : Stmt} (hst : st.Scoped anyName inside ctx)
    (hdeclares : ∀ name ∈ st.declared?, chart.Declares M.current name.lexeme)
    {M₀ : Machine} {outer : Nat} (hH : H outer running ⟨_, .execute st⟩ M₀)
    (hframes : M₀.frames = M.frames) (hcurrent : M₀.current = M.current) :
    Charts H host nesting running chart (st.script host) M fun _ _ ↦ True := by
  rw [Stmt.script.eq_def]
  cases hst with
  | @expression _ _ value _ =>
    exact .bind (h.evaluate hM value) fun _ _ _ _ _ hM _ ↦ .pure hM trivial
  | @print _ _ value _ =>
    exact .bind (h.evaluate hM value) fun _ _ _ _ _ hM _ ↦ .perform (.printLine hM _)
  | @var _ _ name initializer hname _ _ =>
    have hscope := hdeclares name rfl
    cases initializer with
    | none => exact .perform (.define hM hname hscope trivial)
    | some e =>
      exact .bind (h.evaluate hM e) fun _ _ _ hchart hcurrent hM hv ↦
        .perform (.define hM hname (hcurrent ▸ hscope.mono hchart) hv)
  | block | forLoop => exact h.given hM trivial
  | @branch _ _ condition yes no _ _ hyes _ hno =>
    refine .bind (h.evaluate hM condition) fun _ v _ _ _ hM _ ↦ ?_
    split
    · exact h.executePlain hM hyes
    · cases no with
      | none => exact .pure hM trivial
      | some no => exact h.executePlain hM (hno no rfl)
  | @loop _ _ condition _ _ _ hbody =>
    exact .repeatWhile (fun _ _ hM ↦ h.loopRound hM condition hbody) host.rounds hM
  | @function _ _ f hname _ _ =>
    have hscope := hdeclares f.name rfl
    exact .perform (.get_bind (.bind (.newFunction hM f hM.current)
      fun _ _ _ hchart hcurrent hM hf ↦ .define hM hname (hcurrent ▸ hscope.mono hchart) hf))
  | @«return» _ _ value _ =>
    cases value with
    | none => exact .perform (.throw hM trivial)
    | some e => exact .bind (h.evaluate hM e) fun _ _ _ _ _ hM hv ↦ .perform (.throw hM hv)
  | @«class» _ _ name superclass methods hname _ _ _ =>
    have hscope := hdeclares name rfl
    cases superclass with
    | none =>
      refine .perform (.defineClass hM hname hscope (fun _ h ↦ by cases h)
        fun c hc hmethods henv hparent ↦ ?_)
      exact ⟨_, _, _, _, _, _, hH, hc, hmethods, by rw [henv, hframes, hcurrent], hparent⟩
    | some r =>
      refine .andThen (.perform (.superclass hM r)) fun _ parent M₁ hrun hchart _ hM₁ hc ↦ ?_
      rw [Script.run_perform] at hrun
      obtain ⟨rfl, hlookup⟩ := Eval.lookup_of_superclass hrun
      refine .perform (.defineClass hM₁ hname (hscope.mono hchart) ?_
        fun c hname hmethods henv hparent ↦ ?_)
      · rintro _ ⟨⟩
        exact hc
      · exact ⟨_, _, _, _, _, _, hH, hname, hmethods, by rw [henv, hframes, hcurrent], parent,
          Eval.lookup_of_eq hframes hcurrent hlookup, hparent⟩

/-! ## Scopes -/

omit h in
/-- Something is done in a new scope, in which nothing is declared yet. -/
theorem charts_scope (hM : M.Charted H chart) {purpose : Purpose}
    (horigin : Origin.Genuine H chart M.frames.next ⟨M.current, purpose⟩)
    (hfills : purpose.Fills .empty) (hclass : ∀ c, purpose ≠ .methods c) {s : Script Unit}
    (hs : ∀ chart' M', M'.Charted H chart' →
      (∀ x, purpose.Admits x → chart'.Declares M'.current x) →
      Charts H host nesting running chart' s M' fun _ _ ↦ True) :
    Charts H host nesting running chart (do
      let m ← Script.perform get
      let env ← Script.perform (Eval.newFrame m.current .empty)
      Script.enclose env s) M fun _ _ ↦ True := by
  have hframe := Eval.Charts.newFrame hM ⟨M.current, purpose⟩ hM.current horigin hfills
    (fun _ _ h ↦ by cases h) hclass
  refine .get_bind (.bind (.perform hframe) fun chart' env M₁ _ _ hM₁ henv ↦ ?_)
  obtain ⟨henv, id, rfl, hid⟩ := henv
  exact .enclose hM₁ henv fun hM₂ ↦
    hs chart' _ hM₂ fun x hx ↦ ⟨id, M.current, _, rfl, hid, hx⟩

theorem Charted.row (hM : M.Charted H chart) {body : List Stmt}
    (hbody : ∀ st ∈ body, ∀ name ∈ st.declared?, chart.Declares M.current name.lexeme) :
    Charts H host nesting running chart (body.forM fun st ↦ Script.answer (.execute st)) M
      fun _ _ ↦ True :=
  .forM hM fun st hst _ _ hchart hcurrent hM' ↦ h.execute hM' fun name hname ↦
    hcurrent ▸ (hbody st hst name hname).mono hchart

theorem Charted.block (hM : M.Charted H chart) {body : List Stmt}
    (hH : H (nesting + 1) running ⟨_, .block body⟩ M) :
    Charts H host nesting running chart ((Task.block body).script host) M fun _ _ ↦ True :=
  charts_scope hM (.block hH rfl) (List.forall_mem_nil _) (fun _ h ↦ by cases h)
    fun _ _ hM' hadmits ↦ h.row hM' fun _ hst _ hname ↦
      hadmits _ (List.mem_flatMap_of_mem hst (Stmt.mem_declares hname))

theorem Charted.forLoop (hM : M.Charted H chart) {initializer : Option Stmt}
    {condition increment : Option Expr} {body : Stmt} (hbody : body.declared? = none)
    (hH : H (nesting + 1) running ⟨_, .forLoop initializer condition increment body⟩ M) :
    Charts H host nesting running chart
      ((Task.forLoop initializer condition increment body).script host) M fun _ _ ↦ True := by
  refine charts_scope hM (.forLoop hH rfl) (List.forall_mem_nil _) (fun _ h ↦ by cases h)
    fun chart' M' hM' hadmits ↦ ?_
  have hrounds : ∀ {chart₁ M₁}, Machine.Charted H chart₁ M₁ → Charts H host nesting running chart₁
      (Script.repeatWhile (Lox.forRound condition increment body) host.rounds) M₁ fun _ _ ↦ True :=
    fun hM₁ ↦ .repeatWhile (fun _ _ hM ↦ h.forRound hM condition increment hbody) host.rounds hM₁
  cases initializer with
  | none => exact hrounds hM'
  | some st =>
    exact .bind (h.execute hM' fun _ hname ↦ hadmits _ (Stmt.mem_declares hname))
      fun _ _ _ _ _ hM₁ _ ↦ hrounds hM₁

/-! ## Calls -/

theorem Charted.callScript (hM : M.Charted H chart) {callee : Value} {vs : List Value}
    (hcallee : callee.Charted chart) (hvs : ∀ v ∈ vs, v.Charted chart) :
    Charts H host nesting running chart (callee.script host vs) M fun chart v ↦
      v.Charted chart := by
  cases callee with
  | native n => exact .perform (.callNative hM host n vs)
  | function f => exact h.given hM ⟨hcallee, hvs⟩
  | «class» c =>
    refine .bind (.perform (.newInstance hM hcallee)) fun chart₁ i M₁ hchart _ hM₁ hi ↦ ?_
    cases hmethod : c.findMethod? initializerName with
    | some method =>
      have hc : Chart.HasClass chart₁ c := Chart.HasClass.mono hcallee hchart
      refine .bind (.perform (.bindMethod hM₁ hc hi hmethod)) fun chart₂ f M₂ hchart' _ hM₂ hf ↦ ?_
      have hvs₂ : ∀ v ∈ vs, v.Charted chart₂ := fun v hv ↦ (hvs v hv).mono (hchart.trans hchart')
      exact .bind (h.given hM₂ ⟨hf, hvs₂⟩) fun _ _ _ hchart'' _ hM₃ _ ↦
        .pure hM₃ (hi.mono (hchart'.trans hchart''))
    | none => exact .pure hM₁ hi
  | nil | bool _ | number _ | string _ | «instance» _ => exact .perform (.throw hM trivial)

/-- The frame of a call binds the parameters. The body is no declaration. -/
theorem Charted.callFunctionScript (hM : M.Charted H chart) {f : Closure} {vs : List Value}
    (hH : H (nesting + 1) running ⟨_, .callFunction f vs⟩ M)
    (hscoped : f.declaration.Scoped anyName ctx) (hf : (Value.function f).Charted chart)
    (hvs : ∀ v ∈ vs, v.Charted chart) :
    Charts H host nesting (some f) chart ((callFunction f vs).script host) M fun chart v ↦
      v.Charted chart := by
  have hshape : f.declaration.body.declared? = none ∧
      ∀ p ∈ f.declaration.parameters, Ordinary p.lexeme := by
    generalize f.declaration = declaration at hscoped
    cases hscoped with
    | mk _ hordinary _ hplain => exact ⟨hplain, hordinary⟩
  have hzip : ∀ {x}, x ∈ (Bindings.ofList
      ((f.declaration.parameters.map Token.lexeme).zip vs)).names →
        x ∈ f.declaration.parameters.map Token.lexeme := fun hx ↦ by
    obtain ⟨_, hv⟩ := Bindings.exists_of_mem_names hx
    exact (List.of_mem_zip (Bindings.mem_of_get?_ofList hv)).1
  have hframe := Eval.Charts.newFrame hM ⟨f.environment, .call f.declaration⟩ hf (.call hH rfl)
    (fun x hx ↦ ⟨List.forall_mem_map.mpr hshape.2 _ (hzip hx), hzip hx⟩)
    (fun x v hv ↦ hvs v (List.of_mem_zip (Bindings.mem_of_get?_ofList hv)).2)
    fun _ h ↦ by cases h
  rw [script]
  exact .bind (.perform hframe) fun _ _ _ _ _ hM₁ henv ↦
    .body (.enclose hM₁ henv.1 fun hM₂ ↦ h.executePlain hM₂ hshape.1)

/-! ## Tasks -/

theorem Charted.script {α : Type} {t : Task α} (hM : M.Charted H chart)
    (ht : t.Ready chart M.current) (hH : H (nesting + 1) running ⟨_, t⟩ M)
    (hsuited : Suited H running ⟨_, t⟩ M) :
    Charts H host nesting (t.function?.or running) chart (t.script host) M
      fun chart a ↦ t.AnswerCharted chart a := by
  cases t with
  | evaluate e => exact h.expression hM e
  | binary left operator right =>
    exact .bind (h.evaluate hM left) fun _ _ _ _ _ hM _ ↦
      .bind (h.evaluate hM right) fun _ _ _ _ _ hM _ ↦
        .perform (.operator hM fun _ ↦ Value.environments_binary)
  | assignment target value =>
    have htarget : Ordinary target.name.lexeme := by
      cases hsuited with
      | expressions hes _ hpending hscoped =>
        obtain rfl := Option.some.inj hes
        cases hscoped _ List.mem_cons_self with
        | assign hordinary => exact hordinary
        | assignPending hname => exact hpending _ hname
      | statement hst => cases hst
    exact .bind (h.evaluate hM value) fun _ _ _ _ _ hM hv ↦
      .bind (.perform (.assign hM htarget hv)) fun _ _ _ hchart _ hM _ ↦ .pure hM (hv.mono hchart)
  | propertyAssignment object name value =>
    exact .bind (h.evaluate hM value) fun _ _ _ _ _ hM hv ↦
      .bind (h.evaluate hM object) fun _ _ _ hchart _ hM _ ↦
        .bind (.perform (.setProperty hM name (hv.mono hchart))) fun _ _ _ hchart' _ hM _ ↦
          .pure hM (hv.mono (hchart.trans hchart'))
  | invocation callee paren items =>
    exact .bind (h.evaluate hM callee) fun _ f _ _ _ hM hf ↦
      .bind (h.given hM trivial) fun _ vs _ hchart _ hM hvs ↦
        .bind (.perform (.checkCall hM f paren vs.length)) fun _ _ _ hchart' _ hM _ ↦
          h.given hM ⟨hf.mono (hchart.trans hchart'), fun v hv ↦ (hvs v hv).mono hchart'⟩
  | arguments items => exact .each hM fun e _ _ hM ↦ h.evaluate hM e
  | call callee vs => exact h.callScript hM ht.1 ht.2
  | callFunction f vs =>
    cases hsuited with
    | expressions hes => cases hes
    | statement hst => cases hst
    | callFunction _ hf _ =>
      obtain ⟨ctx, _, _, hscoped⟩ := hf.resolved
      exact h.callFunctionScript hM hH hscoped ht.1 ht.2
  | execute st =>
    obtain ⟨ctx, inside, -, hscoped⟩ := hsuited.of_statement rfl
    refine .andThen (.perform (.step hM host)) fun _ _ _ hrun hchart hcurrent hM₁ _ ↦ ?_
    rw [Script.run_perform] at hrun
    exact h.statement hM₁ hscoped
      (fun name hname ↦ hcurrent ▸ Chart.Declares.mono (ht name hname) hchart) hH
      (Eval.frames_of_step hrun).symm hcurrent.symm
  | block body => exact h.block hM hH
  | forLoop initializer condition increment body =>
    obtain ⟨ctx, inside, -, hscoped⟩ := hsuited.of_statement rfl
    cases hscoped with
    | forLoop _ _ _ _ _ hbody => exact h.forLoop hM hbody hH

end Scripts

/-- By induction on the number of nested calls, like the tasks themselves. -/
theorem charted_run {H : History} {host : Host} (hclosed : H.Closed host)
    (hsuited : ∀ nesting running t M, H nesting running t M → Suited H running t M)
    (nesting : Nat) : Charted H host nesting := by
  induction nesting with
  | zero =>
    refine ⟨fun t _ _ _ _ hM _ ↦ ?_⟩
    rw [run_zero]
    exact .throw hM trivial
  | succ nesting ih =>
    refine ⟨fun t _ _ _ hH hM ht ↦ ?_⟩
    rw [run_succ]
    exact (ih.script hM ht hH (hsuited _ _ _ _ hH)
      fun t' M' hasks ↦ hclosed _ _ _ _ t' M' hH hasks).2

end Task

end Lox
