import Lox.Proofs.Recasting.Actions
import Lox.Proofs.Tasks.Consulting

/-!
# Evaluating a program that is recast

If a program is recast, and with it all that the machine holds, the evaluator does the same: the
values, the frames and the output are the same up to lines and slots, and an issue is about the line
that its token was moved to. What the slots hold may well be another thing. All that matters is what
the table makes of it, so the table of the one run has to agree with that of the other.
-/

namespace Lox

variable (ρ : Recasting) {before : List String} {begun : Nat} {host : Host}

namespace Task

/-- A task with everything in it recast. -/
def recast : {α : Type} → Task α → Task α
  | _, evaluate e => evaluate (e.recast ρ)
  | _, binary left operator right =>
    binary (left.recast ρ) (operator.moved ρ.line) (right.recast ρ)
  | _, assignment target value => assignment (target.recast ρ) (value.recast ρ)
  | _, propertyAssignment object name value =>
    propertyAssignment (object.recast ρ) (name.moved ρ.line) (value.recast ρ)
  | _, invocation callee paren items =>
    invocation (callee.recast ρ) (paren.moved ρ.line) (items.map (Expr.recast ρ))
  | _, arguments items => arguments (items.map (Expr.recast ρ))
  | _, call callee vs => call (callee.recast ρ) (vs.map (Value.recast ρ))
  | _, callFunction f vs => callFunction (f.recast ρ) (vs.map (Value.recast ρ))
  | _, execute st => execute (st.recast ρ)
  | _, block body => block (body.map (Stmt.recast ρ))
  | _, forLoop initializer condition increment body =>
    forLoop (initializer.map (Stmt.recast ρ)) (condition.map (Expr.recast ρ))
      (increment.map (Expr.recast ρ)) (body.recast ρ)

/-- What becomes of the answer to a task. -/
def recastAnswer : {α : Type} → Task α → α → α
  | _, evaluate _ | _, binary _ _ _ | _, assignment _ _ | _, propertyAssignment _ _ _
  | _, invocation _ _ _ | _, call _ _ | _, callFunction _ _ => Value.recast ρ
  | _, arguments _ => List.map (Value.recast ρ)
  | _, execute _ | _, block _ | _, forLoop _ _ _ _ => id

end Task

/-- Two ways to do tasks, of which the second does a task that is recast as the first one does the
task. -/
def Answers.Recast (before : List String) (begun : Nat) (A B : Answers) : Prop :=
  ∀ {α : Type} (t : Task α),
    Eval.Recasts ρ before begun (t.recastAnswer ρ) (A t) (B (t.recast ρ))

variable {ρ} {A B : Answers}

/-! ## Scripts -/

namespace Script

variable (ρ before begun A B)

/-- A script that does the same when everything is recast. -/
abbrev Recasts {α α' : Type} (g : α → α') (s : Script α) (s' : Script α') : Prop :=
  Eval.Recasts ρ before begun g (s.run A) (s'.run B)

variable {ρ before begun A B}

namespace Recasts

variable {α α' β β' : Type} {g : α → α'} {k : β → β'} {s : Script α} {s' : Script α'}

theorem pure {a : α} {a' : α'} (h : g a = a') :
    Recasts ρ before begun A B g (Pure.pure a) (Pure.pure a') := Mirrors.pure h

theorem perform {p : Eval α} {q : Eval α'} (h : Eval.Recasts ρ before begun g p q) :
    Recasts ρ before begun A B g (Script.perform p) (Script.perform q) := by
  rw [Recasts, run_perform, run_perform]
  exact h

theorem answer (hanswers : Answers.Recast ρ before begun A B) (t : Task α) :
    Recasts ρ before begun A B (t.recastAnswer ρ) (Script.answer t)
      (Script.answer (t.recast ρ)) := by
  rw [Recasts, run_answer, run_answer]
  exact hanswers t

theorem bind {f : α → Script β} {f' : α' → Script β'} (hs : Recasts ρ before begun A B g s s')
    (hf : ∀ a, Recasts ρ before begun A B k (f a) (f' (g a))) :
    Recasts ρ before begun A B k (s >>= f) (s' >>= f') := by
  rw [Recasts, run_bind, run_bind]
  exact Mirrors.bind hs hf

theorem enclose (env : Environment) (hs : Recasts ρ before begun A B g s s') :
    Recasts ρ before begun A B g (Script.enclose env s) (Script.enclose env s') := by
  rw [Recasts, run_enclose, run_enclose]
  exact Eval.Recasts.within env hs

theorem body {s s' : Script Unit} (hs : Recasts ρ before begun A B id s s') :
    Recasts ρ before begun A B (Value.recast ρ) (Script.body s) (Script.body s') := by
  rw [Recasts, run_body, run_body]
  exact Eval.Recasts.catchReturn hs

theorem repeatWhile {round round' : Script Bool} (h : Recasts ρ before begun A B id round round')
    (rounds : Nat) : Recasts ρ before begun A B id (Script.repeatWhile round rounds)
      (Script.repeatWhile round' rounds) := by
  rw [Recasts, run_repeatWhile, run_repeatWhile]
  exact Eval.Recasts.repeatWhile h rounds

theorem each {ι ι' : Type} {r : ι → ι'} {f : ι → Script α} {f' : ι' → Script α'}
    (hf : ∀ i, Recasts ρ before begun A B g (f i) (f' (r i))) (items : List ι) :
    Recasts ρ before begun A B (List.map g) (Script.each f items)
      (Script.each f' (items.map r)) := by
  rw [Recasts, run_each, run_each]
  exact Mirrors.mapM fun i _ ↦ hf i

theorem forM {ι ι' : Type} {r : ι → ι'} {f : ι → Script Unit} {f' : ι' → Script Unit}
    (hf : ∀ i, Recasts ρ before begun A B id (f i) (f' (r i))) (items : List ι) :
    Recasts ρ before begun A B id (items.forM f) ((items.map r).forM f') := by
  rw [Recasts, run_forM, run_forM]
  exact Mirrors.forM fun i _ ↦ hf i

end Recasts

end Script

/-! ## The scripts of the evaluator -/

section Scripts

open Script (Recasts)
open Script.Recasts (answer perform)

variable {φ : Option Nat → Option Nat} (hanswers : Answers.Recast ρ before begun A B)
include hanswers

theorem Expr.recasts_script (e : Expr) :
    Recasts ρ before begun A B (Value.recast ρ) (e.consulting (φ ∘ ρ.slot)).script
      ((e.recast ρ).consulting φ).script := by
  cases e with
  | literal value => exact .pure (Literal.toValue_recast ρ value)
  | group inner => exact answer hanswers (.evaluate inner)
  | unary operator operand =>
    exact (answer hanswers (.evaluate operand)).bind fun v ↦ perform (.unary operator v)
  | binary left operator right => exact answer hanswers (.binary left operator right)
  | logical left operator right =>
    refine (answer hanswers (.evaluate left)).bind fun v ↦ ?_
    rw [Task.recastAnswer, Value.isTruthy_recast, Token.kind_moved]
    split
    · exact .pure rfl
    · exact answer hanswers (.evaluate right)
  | var target => exact perform (.lookup (target.recast (.slots (φ ∘ ρ.slot))))
  | property object name =>
    exact (answer hanswers (.evaluate object)).bind fun v ↦ perform (.property v name)
  | assign target value => exact answer hanswers (.assignment target value)
  | setProperty object name value =>
    exact answer hanswers (.propertyAssignment object name value)
  | call callee paren arguments =>
    rw [Expr.recast, Expr.recastRow_eq_map]
    exact answer hanswers (.invocation callee paren arguments)
  | self keyword => exact perform (.lookup (keyword.recast (.slots (φ ∘ ρ.slot))))
  | inherited keyword method =>
    exact perform (.inherited (keyword.recast (.slots (φ ∘ ρ.slot))) method)

theorem Value.recasts_script (callee : Value) (arguments : List Value) :
    Recasts ρ before begun A B (Value.recast ρ) (callee.script host arguments)
      ((callee.recast ρ).script host (arguments.map (Value.recast ρ))) := by
  cases callee with
  | native n => exact perform (.callNative n arguments)
  | function f => exact answer hanswers (.callFunction f arguments)
  | «class» c =>
    refine (perform (.newInstance c)).bind fun i ↦ ?_
    rw [Class.findMethod?_recast]
    cases c.findMethod? initializerName with
    | none => exact .pure rfl
    | some method =>
      exact (perform (.bindMethod method (.instance i))).bind fun f ↦
        (answer hanswers (.call (.function f) arguments)).bind fun _ ↦ .pure rfl
  | _ => exact perform .stuck

theorem recasts_loopRound (condition : Expr) (body : Stmt) :
    Recasts ρ before begun A B id (loopRound condition body)
      (loopRound (condition.recast ρ) (body.recast ρ)) := by
  refine (answer hanswers (.evaluate condition)).bind fun v ↦ ?_
  rw [Task.recastAnswer, Value.isTruthy_recast]
  split
  · exact (answer hanswers (.execute body)).bind fun _ ↦ .pure rfl
  · exact .pure rfl

theorem recasts_forRound (condition increment : Option Expr) (body : Stmt) :
    Recasts ρ before begun A B id (forRound condition increment body)
      (forRound (condition.map (Expr.recast ρ)) (increment.map (Expr.recast ρ))
        (body.recast ρ)) := by
  rw [forRound.eq_def, forRound.eq_def]
  refine .bind (g := id) ?_ fun holds ↦ ?_
  · cases condition with
    | none => exact .pure rfl
    | some e =>
      exact (answer hanswers (.evaluate e)).bind fun v ↦ .pure (Value.isTruthy_recast ρ v).symm
  · cases holds with
    | false => exact .pure rfl
    | true =>
      refine (answer hanswers (.execute body)).bind fun _ ↦ ?_
      cases increment with
      | none => exact .pure rfl
      | some e => exact (answer hanswers (.evaluate e)).bind fun _ ↦ .pure rfl

theorem Stmt.recasts_script (st : Stmt) :
    Recasts ρ before begun A B id ((st.consulting (φ ∘ ρ.slot)).script host)
      (((st.recast ρ).consulting φ).script host) := by
  cases st with
  | expression value => exact (answer hanswers (.evaluate value)).bind fun _ ↦ .pure rfl
  | print value =>
    refine (answer hanswers (.evaluate value)).bind fun v ↦ ?_
    rw [Task.recastAnswer, Value.text_recast]
    exact perform (.printLine v.text)
  | var name initializer =>
    cases initializer with
    | none => exact perform (.define name.lexeme .nil)
    | some e =>
      exact (answer hanswers (.evaluate e)).bind fun v ↦ perform (.define name.lexeme v)
  | block body =>
    rw [Stmt.recast, Stmt.recastRow_eq_map]
    exact answer hanswers (.block body)
  | branch condition yes no =>
    refine (answer hanswers (.evaluate condition)).bind fun v ↦ ?_
    rw [Task.recastAnswer, Value.isTruthy_recast]
    split
    · exact answer hanswers (.execute yes)
    · cases no with
      | none => exact .pure rfl
      | some no => exact answer hanswers (.execute no)
  | loop condition body => exact (recasts_loopRound hanswers condition body).repeatWhile _
  | forLoop initializer condition increment body =>
    rw [Stmt.recast, Stmt.recastOption_eq_map]
    exact answer hanswers (.forLoop initializer condition increment body)
  | function declaration =>
    refine perform (Mirrors.get.bind fun M ↦
      (Eval.Recasts.newFunction declaration M.current).bind fun c ↦ ?_)
    rw [FunDecl.name_recast]
    exact Eval.Recasts.define declaration.name.lexeme (.function c)
  | «return» keyword value =>
    cases value with
    | none => exact perform (.throw rfl)
    | some e => exact (answer hanswers (.evaluate e)).bind fun v ↦ perform (.throw rfl)
  | «class» name superclass methods =>
    rw [Stmt.recast, FunDecl.recastRow_eq_map]
    cases superclass with
    | none => exact perform (.defineClass name.lexeme none methods)
    | some r =>
      exact (perform (.superclass (r.recast (.slots (φ ∘ ρ.slot))))).bind fun c ↦
        perform (.defineClass name.lexeme (some c) methods)

theorem Task.recasts_script (hbegun : begun = 0 ∨ host.maxSteps = none) {α : Type} (t : Task α) :
    Recasts ρ before begun A B (t.recastAnswer ρ) ((t.consulting (φ ∘ ρ.slot)).script host)
      (((t.recast ρ).consulting φ).script host) := by
  cases t with
  | evaluate e => exact e.recasts_script hanswers
  | binary left operator right =>
    exact (answer hanswers (.evaluate left)).bind fun v ↦
      (answer hanswers (.evaluate right)).bind fun w ↦ perform (.binary operator v w)
  | assignment target value =>
    exact (answer hanswers (.evaluate value)).bind fun v ↦
      (perform (.assign (target.recast (.slots (φ ∘ ρ.slot))) v)).bind fun _ ↦ .pure rfl
  | propertyAssignment object name value =>
    exact (answer hanswers (.evaluate value)).bind fun v ↦
      (answer hanswers (.evaluate object)).bind fun o ↦
        (perform (.setProperty o name v)).bind fun _ ↦ .pure rfl
  | invocation callee paren items =>
    refine (answer hanswers (.evaluate callee)).bind fun c ↦
      (answer hanswers (.arguments items)).bind fun vs ↦ ?_
    simp only [Task.recastAnswer, List.length_map]
    exact (perform (.checkCall c paren vs.length)).bind fun _ ↦ answer hanswers (.call c vs)
  | arguments items =>
    exact Script.Recasts.each (r := Expr.recast ρ) (fun e ↦ answer hanswers (.evaluate e)) items
  | call callee vs => exact callee.recasts_script hanswers vs
  | callFunction f vs =>
    obtain ⟨id, ⟨name, parameters, body⟩, environment⟩ := f
    have hframe : Bindings.ofList (((parameters.map (Token.moved ρ.line)).map Token.lexeme).zip
          (vs.map (Value.recast ρ)))
        = (Bindings.ofList ((parameters.map Token.lexeme).zip vs)).map (Value.recast ρ) := by
      rw [Bindings.map_ofList, List.map_map, List.zip_map_right]
      rfl
    refine .bind (perform (hframe ▸ .newFrame environment _)) fun env ↦
      .body (.enclose env (answer hanswers (.execute body)))
  | execute st =>
    exact (perform (.step hbegun)).bind fun _ ↦ st.recasts_script hanswers
  | block body =>
    exact (perform Mirrors.get).bind fun M ↦ (perform (.newFrame M.current .empty)).bind fun env ↦
      .enclose env (Script.Recasts.forM (r := Stmt.recast ρ)
        (fun st ↦ answer hanswers (.execute st)) body)
  | forLoop initializer condition increment body =>
    have hrounds := (recasts_forRound hanswers condition increment body).repeatWhile host.rounds
    refine (perform Mirrors.get).bind fun M ↦ (perform (.newFrame M.current .empty)).bind fun env ↦
      .enclose env ?_
    cases initializer with
    | none => exact hrounds
    | some st => exact (answer hanswers (.execute st)).bind fun _ ↦ hrounds

end Scripts

/-! ## Runs -/

/-- A task that is recast is done as before, if the tables make the same of every slot. -/
theorem Task.recasts_runThrough (ρ : Recasting) (before : List String)
    (hbegun : begun = 0 ∨ host.maxSteps = none) (φ : Option Nat → Option Nat) (nesting : Nat) :
    Answers.Recast ρ before begun (runThrough (φ ∘ ρ.slot) host nesting)
      (runThrough φ host nesting) := by
  induction nesting with
  | zero => exact fun t ↦ .throw rfl
  | succ nesting ih => exact fun t ↦ t.recasts_script ih hbegun

/-- Without a table, and with only the lines of a task changed, the task is done as before. -/
theorem Task.recasts_run (f : Int → Int) (before : List String)
    (hbegun : begun = 0 ∨ host.maxSteps = none) (nesting : Nat) {α : Type} (t : Task α) :
    Eval.Recasts (.lines f) before begun (t.recastAnswer (.lines f)) (t.run host nesting)
      ((t.recast (.lines f)).run host nesting) := by
  rw [← runThrough_id, ← runThrough_id]
  exact recasts_runThrough (.lines f) before hbegun id nesting t

end Lox
