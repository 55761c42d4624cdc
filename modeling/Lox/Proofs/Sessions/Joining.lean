import Lox.Proofs.Lines.Compiling
import Lox.Proofs.Lines.Marks
import Lox.Proofs.Sessions.Budget

/-!
# Running a text in one piece or in two

Two texts are run one after the other, or they are joined by a line feed and run as one. If both
compile and the first one runs to its end, that makes no difference, apart from the lines that the
second text is on.

A runtime error is on the line of the token to blame. That token may belong to the second text, and
then it is further down when the texts are joined. But it may as well belong to a function that the
first text has declared, or an earlier one, and then it is where it was.
-/

namespace Lox

/-! ## Outcomes as a session sees them -/

/-- A computation has left a machine with a result. -/
def ended {ε σ α : Type} : Except ε α → σ → EStateM.Result ε σ α
  | .ok a, s => .ok a s
  | .error e, s => .error e s

theorem exists_ended {ε σ α : Type} : ∀ outcome : EStateM.Result ε σ α,
    ∃ result s, outcome = ended result s
  | .ok a s => ⟨.ok a, s, rfl⟩
  | .error e s => ⟨.error e, s, rfl⟩

theorem carried_ended {ε ε' σ σ' α : Type} (onState : σ → σ') (onFailure : ε → ε') (s : σ) :
    ∀ result : Except ε α, carried onState onFailure id (ended result s)
      = ended (result.mapError onFailure) (onState s)
  | .ok _ | .error _ => rfl

namespace Execution

variable (f : Int → Int) (printed : List String) (steps : Nat)

theorem issue?_moved : ∀ result : Except Interrupt Unit,
    (Execution.mk (result.mapError (Interrupt.moved f)) printed steps).issue?
      = (Execution.mk result printed steps).issue?.map (Issue.moved f)
  | .ok _ => rfl
  | .error i => by cases i <;> rfl

/-- Whether an execution ends with an issue on a line of the program at hand. -/
theorem exists_own (result : Except Interrupt Unit) :
    ∃ own : Bool, ∀ f printed steps printed' steps',
      (Execution.mk (result.mapError (Interrupt.moved (unmarked f))) printed steps).issue?
        = (Execution.mk (result.mapError (Interrupt.moved (unmarked id)))
          printed' steps').issue?.map (Issue.moved (if own then f else id)) := by
  have hmoved : ∀ f printed steps,
      (Execution.mk (result.mapError (Interrupt.moved (unmarked f))) printed steps).issue?
        = (Execution.mk result [] 0).issue?.map (Issue.moved (unmarked f)) :=
    fun f printed steps ↦ issue?_moved (unmarked f) printed steps result
  simp only [hmoved]
  cases (Execution.mk result [] 0).issue? with
  | none => exact ⟨false, fun _ _ _ _ _ ↦ rfl⟩
  | some i =>
    obtain ⟨own, hown⟩ := i.exists_own
    exact ⟨own, fun f _ _ _ _ ↦ congrArg some (hown f)⟩

/-- What an execution is left with that is no issue, once lines are forgotten. -/
theorem escaped?_moved : ∀ result : Except Interrupt Unit,
    (Execution.mk (result.mapError (Interrupt.moved f)) printed steps).escaped?.map
        (Interrupt.moved fun _ ↦ 0)
      = (Execution.mk result printed steps).escaped?.map (Interrupt.moved fun _ ↦ 0)
  | .ok _ => rfl
  | .error i => by
    cases i with
    | returning v =>
      exact congrArg (fun v ↦ some (Interrupt.returning v)) (v.recast_recast (.lines f) _)
    | _ => rfl

theorem isOk_moved : ∀ result : Except Interrupt Unit,
    (result.mapError (Interrupt.moved f)).isOk = result.isOk
  | .ok _ | .error _ => rfl

end Execution

/-! ## Machines on other lines -/

namespace Machine

variable (f : Int → Int) (M : Machine)

/-- The texts of the values in a frame do not depend on lines. -/
theorem texts_moved (before : List String) (frame : RecordId) :
    (((M.moved f before).frames.record frame).entries.map fun e ↦ (e.1, e.2.text))
      = (M.frames.record frame).entries.map fun e ↦ (e.1, e.2.text) := by
  rw [moved, recast, Store.record_map, Bindings.map, List.map_map]
  refine List.map_congr_left fun e _ ↦ ?_
  rw [Function.comp_apply, Value.text_recast]

/-- All lines are the same once they are forgotten. -/
theorem moved_zero (before : List String) :
    ({ M.moved f before with printed := [] } : Machine).moved (fun _ ↦ 0) []
      = { M.moved (fun _ ↦ 0) [] with printed := [] } := by
  have hvalue : Value.moved (fun _ ↦ 0) ∘ Value.moved f = Value.moved (fun _ ↦ 0) :=
    funext fun v ↦ v.recast_recast (.lines f) _
  simp only [moved, recast, Store.map_map, hvalue, List.append_nil]

/-- What has been printed can be put back. -/
theorem moved_id_printed : ({ M with printed := [] } : Machine).moved id M.printed = M := by
  rw [moved, recast, Store.map_id Value.recast_same, Store.map_id Value.recast_same]
  rfl

end Machine

theorem Eval.run_append (host : Host) (program program' : List Stmt) :
    Eval.run host (program ++ program')
      = Eval.run host program >>= fun _ ↦ Eval.run host program' := List.forM_append

namespace Session

variable {s : Session} {first second : String}

/-- The built-in functions, or what has been assigned to their names, with the texts of the
values. -/
def builtins (s : Session) : List (String × String) :=
  (s.machine.frames.record Machine.builtinFrame).entries.map fun e ↦ (e.1, e.2.text)

theorem execute_of_ended {program : List Stmt} {m : Machine} (result : Except Interrupt Unit)
    (h : Eval.run s.host program s.machine = ended result m) :
    s.execute program = { s with outputs := [] :: s.outputs }.after m result := by
  cases result with
  | ok a => exact perform_of_ok h
  | error i => exact perform_of_error h

theorem perform_eq_after {α : Type} (s : Session) (p : Eval α) :
    ∃ m result, s.perform p = s.after m result := by
  cases hp : p s.machine with
  | ok a m => exact ⟨m, _, perform_of_ok hp⟩
  | error i m => exact ⟨m, _, perform_of_error hp⟩

theorem host_execute (s : Session) (program : List Stmt) :
    (s.execute program).2.host = s.host := by
  obtain ⟨m, result, h⟩ := perform_eq_after { s with outputs := [] :: s.outputs }
    (Eval.run s.host program)
  rw [execute, h]
  rfl

theorem steps_execute (s : Session) (program : List Stmt) : (s.execute program).1.steps
    = (s.execute program).2.machine.steps - s.machine.steps := by
  obtain ⟨m, result, h⟩ := perform_eq_after { s with outputs := [] :: s.outputs }
    (Eval.run s.host program)
  rw [execute, h]
  rfl

theorem execute_of_isOk {program : List Stmt} (h : (s.execute program).1.result.isOk = true) :
    ∃ m, Eval.run s.host program s.machine = .ok () m ∧
      s.execute program = { s with outputs := [] :: s.outputs }.after m (.ok ()) := by
  cases hrun : Eval.run s.host program s.machine with
  | ok a m => exact ⟨m, rfl, execute_of_ended (.ok a) hrun⟩
  | error i m =>
    rw [execute_of_ended (.error i) hrun] at h
    cases h

/-- Two programs that are executed one after the other, and as one. There is one outcome with marked
lines behind all of it, on whatever lines the second program is. -/
theorem exists_outcome {program : List Stmt} (h : (s.execute program).1.result.isOk = true)
    (program' : List Stmt) : ∃ (result : Except Interrupt Unit) (m : Machine),
      s.machine.steps ≤ (s.execute program).2.machine.steps ∧
      (s.execute program).2.machine.steps ≤ m.steps ∧
      (∀ f, (s.execute program).2.execute (program'.map (Stmt.moved f))
        = { (s.execute program).2 with outputs := [] :: (s.execute program).2.outputs }.after
          (m.moved (unmarked f) []) (result.mapError (Interrupt.moved (unmarked f)))) ∧
      ∀ f, s.execute (program ++ program'.map (Stmt.moved f))
        = { s with outputs := [] :: s.outputs }.after
          (m.moved (unmarked f) (s.execute program).1.printed.reverse)
          (result.mapError (Interrupt.moved (unmarked f))) := by
  -- What the first program has printed is set aside, so that both times the second program starts
  -- with the same machine.
  obtain ⟨M, hrun, hone⟩ := execute_of_isOk h
  obtain ⟨outcome, houtcome⟩ := exists_marked_run s.host program' { M with printed := [] }
  obtain ⟨result, m, rfl⟩ := exists_ended outcome
  have hbefore : (s.execute program).1.printed.reverse = M.printed := by
    rw [hone]
    exact List.reverse_reverse _
  refine ⟨result, m, ?_, ?_, fun f ↦ execute_of_ended _ ?_,
    fun f ↦ execute_of_ended _ ?_⟩
  · rw [hone]
    have hpasses := passes_run s.host program s.machine
    exact (hpasses.of_ok hrun).steps
  · rw [hone]
    have hpasses := passes_run s.host (program'.map (Stmt.moved id)) { M with printed := [] }
    have hafter := houtcome id []
    rw [carried_ended, Machine.moved_id] at hafter
    rw [Eval.Passes, Ends, hafter] at hpasses
    cases result with
    | ok a => exact hpasses.steps
    | error i => exact hpasses.steps
  · have hafter := houtcome f []
    rw [carried_ended, Machine.moved_id] at hafter
    rw [hone]
    exact hafter
  · have hafter := houtcome f M.printed
    rw [carried_ended, Machine.moved_id_printed] at hafter
    rw [hbefore, Eval.run_append, bind_of_ok hrun]
    exact hafter

/-- What one text does that is run in one piece, compared with what its two parts do one after the
other. The second part is further down by some number of lines. -/
structure Joins (one two whole : Run × Session) (shift : Int) : Prop where
  clean : whole.1.compilation.hasErrors = false
  program : whole.1.compilation.program = one.1.compilation.program
    ++ two.1.compilation.program.map (Stmt.moved (· + shift))
  printed : whole.1.printed = one.1.printed ++ two.1.printed
  steps : whole.1.execution.map Execution.steps = one.1.execution.bind fun e ↦
    two.1.execution.map fun e' ↦ e.steps + e'.steps
  isOk : whole.1.isOk = two.1.isOk
  escaped : whole.1.escaped?.map (Interrupt.moved fun _ ↦ 0)
    = two.1.escaped?.map (Interrupt.moved fun _ ↦ 0)
  globals : whole.2.globals = two.2.globals
  builtins : whole.2.builtins = two.2.builtins
  /-- Apart from lines, the machine is the same as well. -/
  machine : whole.2.machine.moved (fun _ ↦ 0) [] = two.2.machine.moved (fun _ ↦ 0) []
  /-- An issue is on a line of the second part if it follows that part to whatever lines it is
  moved. Only then it is further down. -/
  issue : ∃ own : Bool,
    (∀ f, (one.2.execute (two.1.compilation.program.map (Stmt.moved f))).1.issue?
      = two.1.issue?.map (Issue.moved (if own then f else id))) ∧
    whole.1.issue? = two.1.issue?.map (Issue.moved (if own then (· + shift) else id))

/-- Running a text in one piece is the same as running it in two. -/
theorem run_joined (s : Session) (first second : String)
    (hfirst : (Lox.compile s.host.nesting first).hasErrors = false)
    (hsecond : (Lox.compile s.host.nesting second).hasErrors = false)
    (hok : (s.run first).1.isOk = true) :
    Joins (s.run first) ((s.run first).2.run second) (s.run (first ++ "\n" ++ second))
      (height first) := by
  obtain ⟨_, _, hcompiles⟩ := Compiles.of_clean hfirst
  obtain ⟨_, _, hcompiles'⟩ := Compiles.of_clean hsecond
  have hwhole := (hcompiles.joined hcompiles').compile_eq
  have hclean : (Lox.compile s.host.nesting (first ++ "\n" ++ second)).hasErrors = false := by
    rw [hwhole]
    rfl
  have hprogram : (Lox.compile s.host.nesting (first ++ "\n" ++ second)).program
      = (Lox.compile s.host.nesting first).program
        ++ (Lox.compile s.host.nesting second).program.map (Stmt.moved (· + height first)) := by
    rw [hwhole]
    rfl
  rw [run_of_clean hfirst] at hok ⊢
  obtain ⟨result, m, hsteps, hsteps', htwo, hwhole'⟩ :=
    exists_outcome (s := s) hok (Lox.compile s.host.nesting second).program
  have hhost := host_execute s (Lox.compile s.host.nesting first).program
  have hcount := steps_execute s (Lox.compile s.host.nesting first).program
  rw [run_of_clean hclean, run_of_clean (by rw [hhost]; exact hsecond), hhost, hprogram, hwhole']
  -- From here on all that matters of the first run is where it ends.
  obtain ⟨one, hone⟩ : ∃ one, one = s.execute (Lox.compile s.host.nesting first).program :=
    ⟨_, rfl⟩
  have htwo' := htwo id
  rw [funext Stmt.moved_id, List.map_id'] at htwo'
  rw [htwo']
  rw [← hone] at hsteps hsteps' htwo hcount ⊢
  refine ⟨hclean, hprogram, ?_, ?_, ?_, ?_, ?_, ?_, ?_, ?_⟩
  · change (m.printed ++ one.1.printed.reverse).reverse = one.1.printed ++ (m.printed ++ []).reverse
    rw [List.reverse_append, List.reverse_reverse, List.append_nil]
  · change some (m.steps - s.machine.steps)
      = some (one.1.steps + (m.steps - one.2.machine.steps))
    rw [hcount]
    exact congrArg some (by omega)
  · exact (Execution.isOk_moved _ result).trans (Execution.isOk_moved _ result).symm
  · exact (Execution.escaped?_moved _ _ _ result).trans
      (Execution.escaped?_moved (unmarked id) [] 0 result).symm
  · exact (Machine.texts_moved _ m one.1.printed.reverse _).trans
      (Machine.texts_moved (unmarked id) m [] _).symm
  · exact (Machine.texts_moved _ m one.1.printed.reverse _).trans
      (Machine.texts_moved (unmarked id) m [] _).symm
  · exact (Machine.moved_zero _ m one.1.printed.reverse).trans
      (Machine.moved_zero (unmarked id) m []).symm
  -- The mark on the line of the issue says which of the two texts it belongs to.
  · obtain ⟨own, hown⟩ := Execution.exists_own result
    refine ⟨own, fun f ↦ ?_, ?_⟩
    · rw [htwo f]
      exact hown f _ _ _ _
    · exact hown (· + height first) _ _ _ _

/-- A function that prints, and a call of it before something that goes wrong. -/
theorem run_joined_call :
    (Lox.compile 60 "var a;\nfun f() \x7b print a; \x7d").hasErrors = false ∧
    (Lox.compile 60 "f();\nprint -a;").hasErrors = false ∧
    ((start ⟨none, fun _ ↦ 0, 60, 9⟩).run "var a;\nfun f() \x7b print a; \x7d").1.isOk = true ∧
    Joins ((start ⟨none, fun _ ↦ 0, 60, 9⟩).run "var a;\nfun f() \x7b print a; \x7d")
      (((start ⟨none, fun _ ↦ 0, 60, 9⟩).run "var a;\nfun f() \x7b print a; \x7d").2.run
        "f();\nprint -a;")
      ((start ⟨none, fun _ ↦ 0, 60, 9⟩).run
        ("var a;\nfun f() \x7b print a; \x7d" ++ "\n" ++ "f();\nprint -a;"))
      (height "var a;\nfun f() \x7b print a; \x7d") :=
  have hfirst : (Lox.compile 60 "var a;\nfun f() \x7b print a; \x7d").hasErrors = false := by
    decide +kernel
  have hsecond : (Lox.compile 60 "f();\nprint -a;").hasErrors = false := by decide +kernel
  have hok : ((start ⟨none, fun _ ↦ 0, 60, 9⟩).run "var a;\nfun f() \x7b print a; \x7d").1.isOk
      = true := by decide +kernel
  ⟨hfirst, hsecond, hok, run_joined (start ⟨none, fun _ ↦ 0, 60, 9⟩) _ _ hfirst hsecond hok⟩

/-- An issue inside a function of the first text stays on its line. -/
theorem issue_stays_in_earlier_text :
    (Lox.compile 60 "fun f() \x7b return -nil; \x7d").hasErrors = false ∧
    (Lox.compile 60 "f();").hasErrors = false ∧
    ((start ⟨none, fun _ ↦ 0, 60, 9⟩).run "fun f() \x7b return -nil; \x7d").1.isOk = true ∧
    ((start ⟨none, fun _ ↦ 0, 60, 9⟩).run
        ("fun f() \x7b return -nil; \x7d" ++ "\n" ++ "f();")).1.issue?
      = some ⟨.operandNotNumber, some 1⟩ ∧
    (((start ⟨none, fun _ ↦ 0, 60, 9⟩).run "fun f() \x7b return -nil; \x7d").2.run
        "f();").1.issue?.map (Issue.moved (· + height "fun f() \x7b return -nil; \x7d"))
      = some ⟨.operandNotNumber, some 2⟩ := by
  decide +kernel

end Session

end Lox
