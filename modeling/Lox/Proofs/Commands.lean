import Lox.Proofs.Scoping.Judgement
import Lox.Session

/-!
# Commands to a session

What a session can be told to do, and what can be seen of the answer from outside: how an execution
ended, the lines it printed, the number of its statements, and what is bound to the globals
afterwards.
-/

namespace Lox

/-- Something that a session is told to do. -/
inductive Command where
  | run (source : String)
  | evaluate (source : String)
  | compile (source : String)

/-- The program that a command executes. A text with errors is not executed. -/
def Command.program? (nesting : Nat) : Command → Option (List Stmt)
  | .run source =>
    let c := Lox.compile nesting source
    if c.hasErrors then none else some c.program
  | _ => none

/-- The programs that are executed for a row of commands. -/
def accepted (nesting : Nat) (commands : List Command) : List (List Stmt) :=
  commands.filterMap (Command.program? nesting)

/-- Some program that is executed for a row of commands assigns to a local variable of a name in the
initializer of that variable. -/
def SelfAssigned (nesting : Nat) (commands : List Command) (x : String) : Prop :=
  ∃ program ∈ accepted nesting commands, Stmt.anySelfAssigns x false program = true

theorem SelfAssigned.append {nesting : Nat} {commands : List Command} {x : String}
    (h : SelfAssigned nesting commands x) (later : List Command) :
    SelfAssigned nesting (commands ++ later) x := by
  obtain ⟨program, hmem, hx⟩ := h
  refine ⟨program, ?_, hx⟩
  rw [accepted, List.filterMap_append]
  exact List.mem_append_left _ hmem

theorem selfAssigned_of_program {nesting : Nat} {earlier : List Command} {r : Command} {x : String}
    {program : List Stmt} (hr : program ∈ r.program? nesting)
    (hx : Stmt.anySelfAssigns x false program = true) :
    SelfAssigned nesting (earlier ++ [r]) x := by
  refine ⟨program, ?_, hx⟩
  rw [accepted, List.filterMap_append]
  exact List.mem_append_right _ (List.mem_filterMap.mpr ⟨r, List.mem_singleton_self r, hr⟩)

/-- How an execution ended. -/
inductive Outcome where
  /-- It went to its end. If there is a value, its text is seen. -/
  | done (text : Option String)
  | issue (issue : Issue)
  /-- A loop made more rounds than the host admits. -/
  | exhausted
  /-- It was left because of a fault that is not the program's. -/
  | astray
  deriving DecidableEq

/-- What can be seen of an execution. -/
structure Report where
  outcome : Outcome
  printed : List String
  steps : Nat
  /-- The globals afterwards, with the texts of their values. -/
  globals : List (String × String)

def Outcome.ofResult {α : Type} (text : α → Option String) : Except Interrupt α → Outcome
  | .ok a => done (text a)
  | .error (.issue i) => issue i
  | .error .exhausted => exhausted
  | .error _ => astray

/-- What a command is answered with. -/
inductive Answer where
  | run (r : Run)
  | evaluation (e : Evaluation)
  | compilation (c : Analysis (List Stmt))

namespace Answer

/-- The lines that were printed for a command. -/
def printed : Answer → List String
  | run r => r.printed
  | evaluation e => e.printed
  | compilation _ => []

def issue? : Answer → Option Issue
  | run r => r.issue?
  | evaluation e => e.issue?
  | compilation _ => none

def escaped? : Answer → Option Interrupt
  | run r => r.escaped?
  | evaluation e => e.escaped?
  | compilation _ => none

/-- The number of statements that were begun for a command. -/
def begun : Answer → Nat
  | run r => r.begun
  | evaluation e => e.execution.elim 0 Execution.steps
  | compilation _ => 0

end Answer

namespace Session

/-- The globals, with the texts of their values. -/
def globals (s : Session) : List (String × String) :=
  (s.machine.frames.record Machine.globalFrame).entries.map fun e ↦ (e.1, e.2.text)

/-- The session after a command. A text that is only compiled leaves it as it is, as its distances
are nowhere but in its own tree. -/
def serve (s : Session) : Command → Session
  | .run source => (s.run source).2
  | .evaluate source => (s.evaluate source).2
  | .compile _ => s

/-- The answer to a command. -/
def answer (s : Session) : Command → Answer
  | .run source => .run (s.run source).1
  | .evaluate source => .evaluation (s.evaluate source).1
  | .compile source => .compilation (Lox.compile s.host.nesting source)

/-- The session after a row of commands. -/
def serveAll (s : Session) (commands : List Command) : Session := commands.foldl serve s

/-- What a command was left with that is no issue. -/
def escaped? (s : Session) : Command → Option Interrupt
  | .run source => (s.run source).1.escaped?
  | .evaluate source => (s.evaluate source).1.escaped?
  | .compile _ => none

/-- What is seen of an execution after which the session is `s`. -/
def report {α : Type} (s : Session) (text : α → Option String) (e : Execution α) : Report :=
  ⟨.ofResult text e.result, e.printed, e.steps, s.globals⟩

/-- What is seen of a command, if something is executed for it. -/
def report? (s : Session) : Command → Option Report
  | .run source =>
    let (r, s) := s.run source
    r.execution.map (s.report fun _ ↦ none)
  | .evaluate source =>
    let (e, s) := s.evaluate source
    e.execution.map (s.report some)
  | .compile _ => none

/-- What is seen of a row of commands. -/
def reports (s : Session) : List Command → List (Option Report)
  | [] => []
  | r :: rest => s.report? r :: (s.serve r).reports rest

/-! ## What is executed -/

variable {s : Session} {source : String}

theorem run_of_errors (h : (Lox.compile s.host.nesting source).hasErrors = true) :
    s.run source = (⟨Lox.compile s.host.nesting source, none⟩, s) := by
  rw [run]
  exact if_pos h

theorem run_of_clean (h : (Lox.compile s.host.nesting source).hasErrors = false) :
    s.run source = (⟨Lox.compile s.host.nesting source,
        some (s.execute (Lox.compile s.host.nesting source).program).1⟩,
      (s.execute (Lox.compile s.host.nesting source).program).2) := by
  rw [run]
  exact if_neg (by rw [h]; exact Bool.false_ne_true)

theorem evaluate_of_errors (h : (compileExpression s.host.nesting source).hasErrors = true) :
    s.evaluate source = (⟨compileExpression s.host.nesting source, none⟩, s) := by
  rw [evaluate, h]
  cases (compileExpression s.host.nesting source).result <;> rfl

theorem evaluate_of_clean {e : Expr}
    (h : (compileExpression s.host.nesting source).hasErrors = false)
    (hresult : (compileExpression s.host.nesting source).result = some e) :
    s.evaluate source = (⟨compileExpression s.host.nesting source,
      some (s.perform (textOf s.host e)).1⟩, (s.perform (textOf s.host e)).2) := by
  rw [evaluate, h, hresult]

theorem evaluate_of_none (h : (compileExpression s.host.nesting source).result = none) :
    s.evaluate source = (⟨compileExpression s.host.nesting source, none⟩, s) := by
  rw [evaluate, h]

/-- The host stays the same. -/
@[simp] theorem host_serve (s : Session) (r : Command) : (s.serve r).host = s.host := by
  have hafter : ∀ {α : Type} (s : Session) (p : Eval α), (s.perform p).2.host = s.host := by
    intro α s p
    rw [perform]
    cases p s.machine <;> rfl
  cases r with
  | run source =>
    rw [serve]
    cases hclean : (Lox.compile s.host.nesting source).hasErrors with
    | true => rw [run_of_errors hclean]
    | false =>
      rw [run_of_clean hclean]
      exact hafter { s with outputs := [] :: s.outputs } _
  | evaluate source =>
    rw [serve]
    cases hresult : (compileExpression s.host.nesting source).result with
    | none => rw [evaluate_of_none hresult]
    | some e =>
      cases hclean : (compileExpression s.host.nesting source).hasErrors with
      | true => rw [evaluate_of_errors hclean]
      | false =>
        rw [evaluate_of_clean hclean hresult]
        exact hafter s _
  | compile source => rfl

theorem host_serveAll (s : Session) (commands : List Command) :
    (s.serveAll commands).host = s.host := by
  induction commands generalizing s with
  | nil => rfl
  | cons r rest ih => exact (ih (s.serve r)).trans (host_serve s r)

/-- A command that was left for another reason than an issue shows it. -/
theorem exists_report_of_escaped {r : Command} {d : Desync}
    (h : s.escaped? r = some (.desync d)) :
    ∃ report, s.report? r = some report ∧ report.outcome = .astray := by
  have hresult : ∀ {α : Type} {e : Execution α}, e.escaped? = some (.desync d) →
      e.result = .error (.desync d) := by
    rintro α ⟨result, printed, steps⟩ he
    rw [Execution.escaped?] at he
    split at he
    · cases he
    · cases he
    · rename_i heq
      exact heq.trans (congrArg Except.error (Option.some.inj he))
  cases r with
  | run source =>
    obtain ⟨e, he, hescaped⟩ := Option.bind_eq_some_iff.mp h
    exact ⟨_, congrArg (Option.map ((s.run source).2.report fun _ ↦ none)) he,
      congrArg (Outcome.ofResult fun _ ↦ none) (hresult hescaped)⟩
  | evaluate source =>
    obtain ⟨e, he, hescaped⟩ := Option.bind_eq_some_iff.mp h
    exact ⟨_, congrArg (Option.map ((s.evaluate source).2.report some)) he,
      congrArg (Outcome.ofResult some) (hresult hescaped)⟩
  | compile source => cases h

end Session

end Lox
