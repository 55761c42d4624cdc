import Lox.Proofs.Actions
import Lox.Proofs.Tasks.Evaluator

/-!
# How two runs of a task compare

The same task may be done twice, under hosts that limit the number of statements differently, or
with different amounts of nesting. What is known of every action, of either run alone or of both
together, carries over to the tasks if it survives the ways of putting scripts together. `Congruent`
names these ways, so a property of runs needs no induction of its own.

Nearly all actions are quiet: they begin no statement, they take no printed line back, and they know
nothing of the limit. The only other one is the count at the beginning of every statement.
-/

namespace Lox

/-! ## Comparisons that carry over -/

/-- A way to compare two computations that survives putting computations together. -/
structure Congruent (K : (α : Type) → Eval α → Eval α → Prop) : Prop where
  pure : ∀ {α : Type} (a : α), K α (Pure.pure a) (Pure.pure a)
  bind : ∀ {α β : Type} {p q : Eval α} {f g : α → Eval β}, K α p q → (∀ a, K β (f a) (g a)) →
    K β (p >>= f) (q >>= g)
  within : ∀ {α : Type} {p q : Eval α} (env : Environment), K α p q →
    K α (Eval.within env p) (Eval.within env q)
  catchReturn : ∀ {p q : Eval Unit}, K Unit p q → K Value (Eval.catchReturn p) (Eval.catchReturn q)

namespace Script

variable {α β : Type} {good : (α : Type) → Eval α → Prop} {catching : Prop}

/-- Every action of a script has a property, and returns are caught only if that is admitted. -/
def Performs (good : (α : Type) → Eval α → Prop) (catching : Prop) : {α : Type} → Script α → Prop
  | _, done _ => True
  | _, act p next => good _ p ∧ ∀ b, (next b).Performs good catching
  | _, ask _ next => ∀ a, (next a).Performs good catching
  | _, within _ inner next =>
    inner.Performs good catching ∧ ∀ b, (next b).Performs good catching
  | _, catchReturn inner next =>
    catching ∧ inner.Performs good catching ∧ ∀ v, (next v).Performs good catching

namespace Performs

theorem pure (a : α) : (Pure.pure a : Script α).Performs good catching := trivial

theorem perform {p : Eval α} (h : good α p) : (perform p).Performs good catching :=
  ⟨h, fun _ ↦ trivial⟩

theorem answer (t : Task α) : (answer t).Performs good catching := fun _ ↦ trivial

theorem enclose {env : Environment} {s : Script α} (hs : s.Performs good catching) :
    (enclose env s).Performs good catching := ⟨hs, fun _ ↦ trivial⟩

theorem body {s : Script Unit} (hcatching : catching) (hs : s.Performs good catching) :
    (body s).Performs good catching := ⟨hcatching, hs, fun _ ↦ trivial⟩

theorem bind {s : Script α} {f : α → Script β} (hs : s.Performs good catching)
    (hf : ∀ a, (f a).Performs good catching) : (s >>= f).Performs good catching := by
  change (s.bind f).Performs good catching
  induction s with
  | done a => exact hf a
  | act p next ih => exact ⟨hs.1, fun b ↦ ih b (hs.2 b) hf⟩
  | ask t next ih => exact fun a ↦ ih a (hs a) hf
  | within env inner next _ ih => exact ⟨hs.1, fun b ↦ ih b (hs.2 b) hf⟩
  | catchReturn inner next _ ih => exact ⟨hs.1, hs.2.1, fun v ↦ ih v (hs.2.2 v) hf⟩

theorem forM {ι : Type} {f : ι → Script Unit} (hf : ∀ i, (f i).Performs good catching)
    (items : List ι) :
    (items.forM f).Performs good catching := by
  induction items with
  | nil => exact pure ()
  | cons i items ih => exact bind (hf i) fun _ ↦ ih

theorem each {ι : Type} {f : ι → Script α} (hf : ∀ i, (f i).Performs good catching)
    (items : List ι) :
    (Script.each f items).Performs good catching := by
  induction items with
  | nil => exact pure []
  | cons i items ih => exact bind (hf i) fun _ ↦ bind ih fun _ ↦ pure _

theorem repeatWhile {round : Script Bool} (hexhausted : good Unit (throw .exhausted))
    (hround : round.Performs good catching) (rounds : Nat) :
    (Script.repeatWhile round rounds).Performs good catching := by
  induction rounds with
  | zero => exact perform hexhausted
  | succ rounds ih =>
    refine bind hround fun b ↦ ?_
    cases b with
    | true => exact ih
    | false => exact pure ()

end Performs

/-- A script runs alike if its actions compare well with themselves and the tasks are done alike. -/
theorem run_congruent {K : (α : Type) → Eval α → Eval α → Prop} (hK : Congruent K)
    {answers answers' : Answers}
    (hanswers : ∀ {α : Type} (t : Task α), K α (answers t) (answers' t))
    {s : Script α} (hs : s.Performs (fun α p ↦ K α p p) True) :
    K α (s.run answers) (s.run answers') := by
  induction s with
  | done a => exact hK.pure a
  | act p next ih => exact hK.bind hs.1 fun b ↦ ih b (hs.2 b)
  | ask t next ih => exact hK.bind (hanswers t) fun a ↦ ih a (hs a)
  | within env inner next ihinner ih =>
    exact hK.bind (hK.within env (ihinner hs.1)) fun b ↦ ih b (hs.2 b)
  | catchReturn inner next ihinner ih =>
    exact hK.bind (hK.catchReturn (ihinner hs.2.1)) fun v ↦ ih v (hs.2.2 v)

end Script

/-! ## Quiet and plain actions -/

/-- A machine is later than another one by no statement, and is in the same environment. -/
structure Machine.SameStep (M M' : Machine) : Prop where
  steps : M'.steps = M.steps
  printed : M.printed <:+ M'.printed
  current : M'.current = M.current

theorem Machine.SameStep.refl (M : Machine) : M.SameStep M := ⟨rfl, List.suffix_rfl, rfl⟩

theorem Machine.SameStep.trans {M M' M'' : Machine} (h : M.SameStep M') (h' : M'.SameStep M'') :
    M.SameStep M'' :=
  ⟨h'.steps.trans h.steps, h.printed.trans h'.printed, h'.current.trans h.current⟩

/-- Whether something ended because too many statements were begun. -/
def Interrupt.isStepLimit : Interrupt → Bool
  | issue ⟨.stepLimit _, _⟩ => true
  | _ => false

/-- Whether something ended for want of nesting or of rounds. -/
def Interrupt.isShortage : Interrupt → Bool
  | issue ⟨.stackOverflow, _⟩ | exhausted => true
  | _ => false

/-- Whether something ended because of a bound that the host sets. -/
def Interrupt.isBound (i : Interrupt) : Bool := i.isStepLimit || i.isShortage

/-- A computation that begins no statement, takes back no line and leaves the environment as it is.
If it stops early, it is for another reason than the limit on statements. -/
def Eval.Quiet {α : Type} (p : Eval α) : Prop := ∀ M, Ends p M (fun _ M' ↦ M.SameStep M')
  fun i M' ↦ M.SameStep M' ∧ i.isStepLimit = false

/-- A quiet computation that does not stop because of any bound of the host. -/
def Eval.Plain {α : Type} (p : Eval α) : Prop := ∀ M, Ends p M (fun _ M' ↦ M.SameStep M')
  fun i M' ↦ M.SameStep M' ∧ i.isBound = false

namespace Eval.Quiet

variable {α : Type}

theorem pure (a : α) : Quiet (Pure.pure a) := Machine.SameStep.refl

theorem throw {i : Interrupt} (h : i.isStepLimit = false) : Quiet (MonadExcept.throw i : Eval α) :=
  fun M ↦ ⟨.refl M, h⟩

end Eval.Quiet

theorem Eval.Plain.quiet {α : Type} {p : Eval α} (h : p.Plain) : p.Quiet :=
  fun M ↦ (h M).mono (fun _ _ h ↦ h) fun _ _ h ↦ ⟨h.1, (Bool.or_eq_false_iff.mp h.2).1⟩

namespace Eval.Plain

variable {α β : Type} {host : Host}

theorem pure (a : α) : Plain (Pure.pure a) := Machine.SameStep.refl

theorem throw {i : Interrupt} (h : i.isBound = false) : Plain (MonadExcept.throw i : Eval α) :=
  fun M ↦ ⟨.refl M, h⟩

theorem bind {p : Eval α} {f : α → Eval β} (hp : p.Plain) (hf : ∀ a, (f a).Plain) :
    Plain (p >>= f) := by
  intro M
  refine .bind ((hp M).mono (fun a M₁ h₁ ↦ (hf a M₁).mono ?_ ?_) fun _ _ h ↦ h)
  · exact fun b M₂ h₂ ↦ h₁.trans h₂
  · exact fun i M₂ h₂ ↦ ⟨h₁.trans h₂.1, h₂.2⟩

theorem map {g : α → β} {p : Eval α} (hp : p.Plain) : Plain (g <$> p) := by
  rw [← bind_pure_comp]
  exact hp.bind fun _ ↦ pure _

theorem get : Plain (MonadState.get : Eval Machine) := Machine.SameStep.refl

theorem modify {f : Machine → Machine} (h : ∀ M : Machine, M.SameStep (f M)) :
    Plain (modify f : Eval Unit) := h

theorem modifyGet {f : Machine → α × Machine} (h : ∀ M : Machine, M.SameStep (f M).2) :
    Plain (modifyGet f : Eval α) := h

theorem fail {token : Token} {cause : Issue.Cause}
    (h : (Interrupt.issue (.atToken token cause)).isBound = false) :
    Plain (Eval.fail token cause : Eval α) := throw h

theorem ofExcept {ε : Type} {interrupt : ε → Interrupt} {result : Except ε α}
    (h : ∀ e, result = .error e → (interrupt e).isBound = false) :
    Plain (Eval.ofExcept interrupt result) := by
  cases result with
  | ok a => exact pure a
  | error e => exact throw (h e rfl)

theorem getAt (distance : Int) (name : String) : Plain (Eval.getAt distance name) :=
  get.bind fun _ ↦ ofExcept fun _ _ ↦ rfl

theorem lookup (r : Reference) : Plain (Eval.lookup r) := by
  rw [Eval.lookup.eq_def]
  cases r.distance with
  | some d => exact getAt _ _
  | none =>
    refine get.bind fun M ↦ ?_
    cases M.frames.get? Machine.globals r.name.lexeme with
    | some v => exact pure v
    | none => exact fail rfl

theorem assign (r : Reference) (v : Value) : Plain (Eval.assign r v) := by
  refine bind ?_ fun _ ↦ modify fun M ↦ ⟨rfl, List.suffix_rfl, rfl⟩
  rw [Eval.frameOf.eq_def]
  refine get.bind fun M ↦ ?_
  cases r.distance with
  | some d => exact (ofExcept fun _ _ ↦ rfl).bind fun _ ↦ pure _
  | none =>
    cases M.frames.frameOf? Machine.globals r.name.lexeme with
    | some frame => exact pure frame
    | none => exact fail rfl

theorem define (name : String) (v : Value) : Plain (Eval.define name v) :=
  modify fun _ ↦ ⟨rfl, List.suffix_rfl, rfl⟩

theorem newFrame (env : Environment) (b : Bindings Value) : Plain (Eval.newFrame env b) :=
  modifyGet fun _ ↦ ⟨rfl, List.suffix_rfl, rfl⟩

theorem newId : Plain Eval.newId := modifyGet fun _ ↦ ⟨rfl, List.suffix_rfl, rfl⟩

theorem newInstance (c : Class) : Plain (Eval.newInstance c) :=
  modifyGet fun _ ↦ ⟨rfl, List.suffix_rfl, rfl⟩

theorem printLine (line : String) : Plain (Eval.printLine line) :=
  modify fun _ ↦ ⟨rfl, List.suffix_cons _ _, rfl⟩

theorem newFunction (declaration : FunDecl) (env : Environment) :
    Plain (Eval.newFunction declaration env) := newId.bind fun _ ↦ pure _

theorem bindMethod (method : FunDecl × Environment) (self : Value) :
    Plain (Eval.bindMethod method self) := (newFrame _ _).bind fun _ ↦ newFunction _ _

theorem defineClass (name : String) (superclass : Option Class) (methods : List FunDecl) :
    Plain (Eval.defineClass name superclass methods) := by
  rw [Eval.defineClass_eq]
  exact (get.bind fun _ ↦ newFrame _ _).bind fun _ ↦ newId.bind fun _ ↦ define _ _

theorem superclass (r : Reference) : Plain (Eval.superclass r) := by
  refine (lookup r).bind fun v ↦ ?_
  cases v with
  | «class» c => exact pure c
  | _ => exact fail rfl

theorem property (object : Value) (name : Token) : Plain (Eval.property object name) := by
  rw [Eval.property.eq_def]
  cases object with
  | «instance» i =>
    refine get.bind fun M ↦ ?_
    cases (M.objects.record i.fields).get? name.lexeme with
    | some v => exact pure v
    | none =>
      cases i.class.findMethod? name.lexeme with
      | some method => exact (bindMethod _ _).map
      | none => exact fail rfl
  | _ => exact fail rfl

theorem setProperty (object : Value) (name : Token) (v : Value) :
    Plain (Eval.setProperty object name v) := by
  cases object with
  | «instance» i => exact modify fun _ ↦ ⟨rfl, List.suffix_rfl, rfl⟩
  | _ => exact fail rfl

theorem inherited (keyword : Reference) (method : Token) :
    Plain (Eval.inherited keyword method) := by
  rw [Eval.inherited.eq_def]
  cases keyword.distance with
  | none => exact fail rfl
  | some d =>
    refine (getAt _ _).bind fun parent ↦ (getAt _ _).bind fun self ↦ ?_
    cases parent with
    | «class» c =>
      dsimp only
      cases c.findMethod? method.lexeme with
      | some m => exact (bindMethod _ _).map
      | none => exact fail rfl
    | _ => exact throw rfl

theorem checkCall (callee : Value) (paren : Token) (given : Nat) :
    Plain (Eval.checkCall callee paren given) := by
  rw [Eval.checkCall.eq_def]
  cases callee.signature? with
  | none => exact fail rfl
  | some signature =>
    dsimp only
    split
    · exact pure ()
    · exact fail rfl

theorem callNative (n : Native) (arguments : List Value) :
    Plain (Eval.callNative host n arguments) := by
  cases n with
  | clock => exact (modifyGet fun _ ↦ ⟨rfl, List.suffix_rfl, rfl⟩).map
  | toString => exact pure _

theorem unary (operator : Token) (operand : Value) :
    Plain (Eval.ofExcept .issue (Value.unary operator operand)) := by
  refine ofExcept fun i hi ↦ ?_
  rw [Value.unary.eq_def] at hi
  split at hi <;> cases hi <;> rfl

theorem binary (operator : Token) (left right : Value) :
    Plain (Eval.ofExcept .issue (Value.binary operator left right)) := by
  refine ofExcept fun i hi ↦ ?_
  rw [Value.binary.eq_def] at hi
  split at hi
  · cases hi
  · cases hi
  · split at hi <;> cases hi
    rfl
  · split at hi
    · split at hi <;> cases hi
      rfl
    · cases hi
      rfl

end Eval.Plain

/-! ## The actions of the evaluator -/

open Eval (Quiet Plain)

namespace Task

variable {good : (α : Type) → Eval α → Prop} {catching : Prop} (host : Host)

/-- Executing a statement that has been counted is quiet, apart from the tasks it asks for. -/
theorem statement_performs (hplain : ∀ {α : Type} {p : Eval α}, Plain p → good α p)
    (hexhausted : good Unit (throw .exhausted)) (st : Stmt) :
    (st.script host).Performs good catching := by
  have hround : ∀ condition body, (loopRound condition body).Performs good catching := by
    intro condition body
    refine .bind (.answer _) fun v ↦ ?_
    split
    · exact .bind (.answer _) fun _ ↦ .pure _
    · exact .pure _
  cases st with
  | expression value => exact .bind (.answer _) fun _ ↦ .pure _
  | print value => exact .bind (.answer _) fun _ ↦ .perform (hplain (.printLine _))
  | var name initializer =>
    cases initializer with
    | none => exact .perform (hplain (.define _ _))
    | some e => exact .bind (.answer _) fun _ ↦ .perform (hplain (.define _ _))
  | block body => exact .answer _
  | branch condition yes no =>
    rw [Stmt.script.eq_def]
    refine .bind (.answer _) fun v ↦ ?_
    split
    · exact .answer _
    · cases no with
      | none => exact .pure _
      | some no => exact .answer _
  | loop condition body => exact .repeatWhile hexhausted (hround condition body) _
  | forLoop initializer condition increment body => exact .answer _
  | function declaration =>
    exact .perform (hplain (Plain.get.bind fun _ ↦ (Plain.newFunction _ _).bind fun _ ↦
      Plain.define _ _))
  | «return» keyword value =>
    cases value with
    | none => exact .perform (hplain (.throw rfl))
    | some e => exact .bind (.answer _) fun _ ↦ .perform (hplain (.throw rfl))
  | «class» name superclass methods =>
    cases superclass with
    | none => exact .perform (hplain (.defineClass _ _ _))
    | some r =>
      exact .bind (.perform (hplain (.superclass r))) fun _ ↦ .perform (hplain (.defineClass _ _ _))

/-- What a task does once it has been counted, if it is one that is. -/
def rest : {α : Type} → Task α → Script α
  | _, execute st => st.script host
  | _, t => t.script host

/-- One round of a `for` loop only asks for other tasks. -/
theorem forRound_performs (condition increment : Option Expr) (body : Stmt) :
    (forRound condition increment body).Performs good catching := by
  rw [forRound.eq_def]
  refine .bind ?_ fun holds ↦ ?_
  · cases condition with
    | none => exact .pure _
    | some e => exact .bind (.answer _) fun _ ↦ .pure _
  · split
    · refine .bind (.answer _) fun _ ↦ ?_
      cases increment with
      | none => exact .pure _
      | some e => exact .bind (.answer _) fun _ ↦ .pure _
    · exact .pure _

theorem block_performs (hplain : ∀ {α : Type} {p : Eval α}, Plain p → good α p)
    (body : List Stmt) : ((block body).script host).Performs good catching :=
  .bind (.perform (hplain .get)) fun _ ↦ .bind (.perform (hplain (.newFrame _ _))) fun _ ↦
    .enclose (.forM (fun _ ↦ .answer _) body)

theorem forLoop_performs (hplain : ∀ {α : Type} {p : Eval α}, Plain p → good α p)
    (hexhausted : good Unit (throw .exhausted))
    (initializer : Option Stmt) (condition increment : Option Expr) (body : Stmt) :
    ((forLoop initializer condition increment body).script host).Performs good catching := by
  rw [script.eq_def]
  refine .bind (.perform (hplain .get)) fun _ ↦ .bind (.perform (hplain (.newFrame _ _)))
    fun _ ↦ .enclose ?_
  have hrounds : (Script.repeatWhile (forRound condition increment body) host.rounds).Performs
      good catching :=
    .repeatWhile hexhausted (forRound_performs condition increment body) host.rounds
  cases initializer with
  | none => exact hrounds
  | some st => exact .bind (.answer _) fun _ ↦ hrounds

/-- Only a call of a function catches returns. -/
theorem rest_performs (hplain : ∀ {α : Type} {p : Eval α}, Plain p → good α p)
    (hexhausted : good Unit (throw .exhausted)) {α : Type}
    (t : Task α) : (t.rest host).Performs good True := by
  cases t with
  | evaluate e =>
    cases e with
    | literal value => exact .pure _
    | group inner | binary left operator right | assign target value
    | setProperty object name value | call callee paren arguments => exact .answer _
    | unary operator operand => exact .bind (.answer _) fun _ ↦ .perform (hplain (.unary _ _))
    | logical left operator right =>
      refine .bind (.answer _) fun v ↦ ?_
      split
      · exact .pure _
      · exact .answer _
    | var target => exact .perform (hplain (.lookup target))
    | property object name => exact .bind (.answer _) fun _ ↦ .perform (hplain (.property _ _))
    | self keyword => exact .perform (hplain (.lookup keyword))
    | inherited keyword method => exact .perform (hplain (.inherited _ _))
  | binary left operator right =>
    exact .bind (.answer _) fun _ ↦ .bind (.answer _) fun _ ↦ .perform (hplain (.binary _ _ _))
  | assignment target value =>
    exact .bind (.answer _) fun _ ↦ .bind (.perform (hplain (.assign _ _))) fun _ ↦ .pure _
  | propertyAssignment object name value =>
    exact .bind (.answer _) fun _ ↦ .bind (.answer _) fun _ ↦
      .bind (.perform (hplain (.setProperty _ _ _))) fun _ ↦ .pure _
  | invocation callee paren items =>
    exact .bind (.answer _) fun _ ↦ .bind (.answer _) fun _ ↦
      .bind (.perform (hplain (.checkCall _ _ _))) fun _ ↦ .answer _
  | arguments items => exact .each (fun _ ↦ .answer _) items
  | call callee vs =>
    cases callee with
    | native n => exact .perform (hplain (.callNative n vs))
    | function f => exact .answer _
    | «class» c =>
      refine .bind (.perform (hplain (.newInstance c))) fun i ↦ ?_
      cases c.findMethod? initializerName with
      | some method =>
        exact .bind (.perform (hplain (.bindMethod _ _))) fun _ ↦
          .bind (.answer _) fun _ ↦ .pure _
      | none => exact .pure _
    | nil | bool _ | number _ | string _ | «instance» _ => exact .perform (hplain (.throw rfl))
  | callFunction f vs =>
    exact .bind (.perform (hplain (.newFrame _ _))) fun _ ↦ .body trivial (.enclose (.answer _))
  | execute st => exact statement_performs host hplain hexhausted st
  | block body => exact block_performs host hplain body
  | forLoop initializer condition increment body =>
    exact forLoop_performs host hplain hexhausted initializer condition increment body

theorem run_zero {α : Type} (t : Task α) : t.run host 0 = Eval.overflow := by
  cases t <;> rfl

variable {host} {K : (α : Type) → Eval α → Eval α → Prop} {limit : Option Int}

/-- Under hosts that differ in the limit on statements only, a task is done alike if its statements
are counted alike and the tasks it asks for are done alike. -/
theorem run_succ_congruent (hK : Congruent K)
    (hquiet : ∀ {α : Type} {p : Eval α}, Quiet p → K α p p)
    (hstep : K Unit (Eval.step host) (Eval.step { host with maxSteps := limit }))
    {nesting deeper : Nat}
    (hanswers : ∀ {α : Type} (t : Task α),
      K α (t.run host nesting) (t.run { host with maxSteps := limit } deeper))
    {α : Type} (t : Task α) :
    K α (t.run host (nesting + 1)) (t.run { host with maxSteps := limit } (deeper + 1)) := by
  have hhost : t.rest { host with maxSteps := limit } = t.rest host := by
    cases t
    case execute st => cases st <;> rfl
    all_goals rfl
  have hrest : K α ((t.rest host).run (run host nesting))
      ((t.rest { host with maxSteps := limit }).run
        (run { host with maxSteps := limit } deeper)) := by
    rw [hhost]
    exact Script.run_congruent hK hanswers
      (rest_performs host (fun h ↦ hquiet h.quiet) (hquiet (.throw rfl)) t)
  rw [run_succ, run_succ]
  cases t with
  | execute st =>
    rw [script, script, Script.run_bind, Script.run_bind, Script.run_perform, Script.run_perform]
    exact hK.bind hstep fun _ ↦ hrest
  | _ => exact hrest

/-- With the same nesting, it is only up to how the statements are counted. -/
theorem run_congruent (hK : Congruent K)
    (hquiet : ∀ {α : Type} {p : Eval α}, Quiet p → K α p p)
    (hstep : K Unit (Eval.step host) (Eval.step { host with maxSteps := limit })) :
    ∀ nesting {α : Type} (t : Task α),
      K α (t.run host nesting) (t.run { host with maxSteps := limit } nesting)
  | 0, α, t => by
    rw [run_zero, run_zero]
    exact hquiet (.throw rfl)
  | nesting + 1, α, t =>
    run_succ_congruent hK hquiet hstep (fun t ↦ run_congruent hK hquiet hstep nesting t) t

end Task

end Lox
