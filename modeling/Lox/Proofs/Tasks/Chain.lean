import Lox.Proofs.Tasks.Evaluator

/-!
# Chains of tasks

At any moment of a run some task is being done, for another task that asked for it, and so on out to
the program. `Doing` lists such a chain, the innermost task first, each task with the machine as it
was when the task was begun. What is claimed of every moment of a run is claimed of every chain.

A chain also tells where in the program the moment is. `Initializing` says that the tasks inside of
a `var` statement are all parts of its initializer, and `Running` that the tasks inside of a call
are all parts of the body of the function.
-/

namespace Lox

/-! ## Parts of programs -/

/-- The expressions right inside an expression. -/
def Expr.parts : Expr → List Expr
  | literal _ | var _ | self _ | inherited _ _ => []
  | group e | unary _ e | property e _ | assign _ e => [e]
  | binary left _ right | logical left _ right | setProperty left _ right => [left, right]
  | call callee _ arguments => callee :: arguments

/-- An expression is a part of another one, perhaps a part of a part, or it is that one itself. -/
inductive Expr.Contains (outer : Expr) : Expr → Prop
  | itself : Contains outer outer
  | part {e inner : Expr} : Contains outer e → inner ∈ e.parts → Contains outer inner

/-- The statements right inside a statement. Those of a function are not among them. -/
def Stmt.parts : Stmt → List Stmt
  | block body => body
  | branch _ yes no => yes :: no.toList
  | loop _ body => [body]
  | forLoop initializer _ _ body => body :: initializer.toList
  | expression _ | print _ | var _ _ | function _ | «return» _ _ | «class» _ _ _ => []

/-- A statement is a part of another one, but not of a function in there, or it is that one
itself. -/
inductive Stmt.Contains (outer : Stmt) : Stmt → Prop
  | itself : Contains outer outer
  | part {st inner : Stmt} : Contains outer st → inner ∈ st.parts → Contains outer inner

/-! ## What a task is about -/

namespace Task

variable {α : Type}

/-- The expressions that a task evaluates. -/
def expressions? : Task α → Option (List Expr)
  | evaluate e => some [e]
  | binary left operator right => some [.binary left operator right]
  | assignment target value => some [.assign target value]
  | propertyAssignment object name value => some [.setProperty object name value]
  | invocation callee paren items => some [.call callee paren items]
  | arguments items => some items
  | _ => none

/-- The statement that a task executes. -/
def statement? : Task α → Option Stmt
  | execute st => some st
  | block body => some (.block body)
  | forLoop initializer condition increment body =>
    some (.forLoop initializer condition increment body)
  | _ => none

/-- No task is about both. -/
theorem statement?_eq_none {t : Task α} {es : List Expr} (h : t.expressions? = some es) :
    t.statement? = none := by
  cases t <;> first | rfl | cases h

end Task

/-! ## Chains -/

/-- A task that has been begun, with the machine as it was then. -/
abbrev Begun := Sigma Task × Machine

/-- While a script runs from a state, a chain of tasks is being done, with a number of nested calls
that the innermost one may still make. -/
inductive Doing (host : Host) {α : Type} (s : Script α) (M : Machine) : Nat → List Begun → Prop
  | outermost {t : Sigma Task} {M' : Machine} :
      s.Asks (Task.run host host.nesting) M t M' → Doing host s M host.nesting [(t, M')]
  | inner {nesting : Nat} {b : Begun} {outer : List Begun} {t : Sigma Task} {M' : Machine} :
      Doing host s M (nesting + 1) (b :: outer) →
      (b.1.2.script host).Asks (Task.run host nesting) b.2 t M' →
      Doing host s M nesting ((t, M') :: b :: outer)

/-- The tasks from a `var` statement inwards are about its initializer. The statement is not at the
top level, where the globals are current. -/
inductive Initializing (name : Token) (initializer : Expr) : List Begun → Prop
  | declaration {M : Machine} {outer : List Begun} : M.current ≠ Machine.globals →
      Initializing name initializer ((⟨_, .execute (.var name (some initializer))⟩, M) :: outer)
  | inner {t : Sigma Task} {es : List Expr} {M : Machine} {outer : List Begun} :
      t.2.expressions? = some es → (∀ e ∈ es, initializer.Contains e) →
      Initializing name initializer outer → Initializing name initializer ((t, M) :: outer)

/-- The tasks from the call of a function inwards are about its body. -/
inductive Running (f : Closure) (arguments : List Value) (M₀ : Machine) : List Begun → Prop
  | call {outer : List Begun} :
      Running f arguments M₀ ((⟨_, .callFunction f arguments⟩, M₀) :: outer)
  | inner {t : Sigma Task} {st : Stmt} {M : Machine} {outer : List Begun} :
      t.2.statement? = some st → f.declaration.body.Contains st →
      Running f arguments M₀ outer → Running f arguments M₀ ((t, M) :: outer)

/-! ## Programs and expressions -/

/-- A program as a script. -/
def programScript (program : List Stmt) : Script Unit :=
  program.forM fun st ↦ Script.answer (.execute st)

theorem run_programScript (host : Host) (program : List Stmt) :
    (programScript program).run (Task.run host host.nesting) = Eval.run host program := by
  rw [programScript, Script.run_forM, Eval.run]
  simp only [Script.run_answer, Task.run]

end Lox
