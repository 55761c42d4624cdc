import Lox.Proofs.Scoping.Depth
import Lox.Proofs.Sessions.Joining
import Lox.Proofs.Syntax.RoundTrip.Program
import Lox.Proofs.Tasks.Depth

/-!
# Evaluating an expression and printing its value

An expression is evaluated by itself, or it is made a statement that prints its value. The two go
through different functions at every stage: the parser stops at the end of the text or at a
semicolon, the resolver and the evaluator begin one nested call further out or further in, and the
statement is counted. None of that makes a difference to the expression.
-/

namespace Lox

/-! ## The text -/

/-- The text of a statement that prints the value of an expression. The line feed ends a comment
that the expression may end with. -/
def printing (source : String) : String := "print " ++ source ++ "\n;"

namespace Scan

/-- A keyword in front of a text changes nothing about the text. -/
theorem walk_print (source : String) :
    walk ("print " ++ source) = (walk source).after 0 [⟨.print, "print", .nil, 1⟩] [] := by
  have hprefix : Piece.cut ("print " ++ source).toList
      = ⟨.lexeme .print .nil, "print".toList⟩ :: ⟨.blank, [' ']⟩ :: Piece.cut source.toList := by
    rw [String.toList_append]
    change Piece.cut ('p' :: ("rint ".toList ++ source.toList)) = _
    rw [Piece.cut_cons]
    have hword : Piece.first 'p' ("rint ".toList ++ source.toList)
        = (⟨.lexeme .print .nil, "print".toList⟩, ' ' :: source.toList) := rfl
    rw [hword, Piece.cut_cons]
    rfl
  rw [walk, hprefix, List.foldl_cons, List.foldl_cons, walk, ← foldl_after]
  rfl

end Scan

/-- The tokens of the statement are those of the expression between two others. -/
theorem scan_printing {source : String} (h : (scan source).errors = []) :
    ∃ semicolon finish, semicolon.kind = .semicolon ∧ scan (printing source)
      = ⟨⟨.print, "print", .nil, 1⟩ :: (scan source).tokens ++ [semicolon], finish, []⟩ := by
  have hshift : Token.moved (· + 0) = id := by
    funext t
    rw [Token.moved, Int.add_zero]
    rfl
  have hkeyword : scan ("print " ++ source)
      = ⟨⟨.print, "print", .nil, 1⟩ :: (scan source).tokens, (scan source).finish, []⟩ := by
    rw [Scan.scan_eq_walk] at h ⊢
    rw [Scan.walk_print, Scan.Walk.after, hshift, List.reverse_eq_nil_iff.mp h, Scan.scan_eq_walk]
    simp
  have hsemicolon : Piece.cut ";".toList = [⟨.lexeme .semicolon .nil, [';']⟩] := by
    change Piece.cut [';'] = _
    rw [Piece.cut_cons]
    change _ :: Piece.cut [] = _
    rw [Piece.cut_nil]
    rfl
  have hline : printing source = "print " ++ source ++ "\n" ++ ";" := by
    have hend : "\n;" = "\n" ++ ";" := rfl
    rw [printing, hend, ← String.append_assoc]
  rw [hline, scan_joined (by rw [hkeyword]), hkeyword, scan.eq_def ";", hsemicolon]
  exact ⟨_, _, rfl, rfl⟩

/-! ## The tree -/

/-- An expression that can be read as one is compiled, and so is the statement that prints its
value, unless that is nested too deeply. -/
theorem exists_compiled {nesting : Nat} {source : String}
    (hexpression : isExpression nesting source = true)
    (hdeep : (compile nesting (printing source)).tooDeep = false) :
    ∃ e findings, compileExpression nesting source
        = ⟨scan source, some e, ⟨.resolution, #[]⟩, findings, false⟩ ∧
      compile nesting (printing source)
        = ⟨scan (printing source), some [.print e], ⟨.resolution, #[]⟩, findings, false⟩ := by
  rw [isExpression, Bool.and_eq_true, Bool.not_eq_true'] at hexpression
  obtain ⟨parsed, hresult⟩ := Option.isSome_iff_exists.mp hexpression.1
  have hparse := Analysis.parse_clean hexpression.2 hresult
  obtain ⟨hscan, -, -⟩ := Analysis.scan_parse_clean hexpression.2
  obtain ⟨semicolon, finish, hsemicolon, hprinting⟩ := scan_printing hscan
  have hclean : (scan (printing source)).errors = [] := by rw [hprinting]
  have hstatement : (parseProgram nesting (scan (printing source)).tokens
        (scan (printing source)).finish).result = .error .tooDeep ∨
      parseProgram nesting (scan (printing source)).tokens (scan (printing source)).finish
        = ⟨.ok [.print parsed], []⟩ := by
    rw [hprinting]
    exact parseProgram_print (congrArg Token.kind (finish_scan source)) hparse rfl hsemicolon finish
  obtain ⟨hparse', hsome⟩ := Analysis.of_not_tooDeep hclean hstatement hdeep
  obtain ⟨findings, hresolve', hresolve⟩ := resolve_print hsome
  exact ⟨parsed.located [], findings, Analysis.eq_of_clean hscan hparse hresolve,
    Analysis.eq_of_clean hclean hparse' hresolve'⟩

/-! ## The machine -/

namespace Eval

variable {host : Host}

/-- Without a limit, it makes no difference how many statements have been begun before. -/
theorem mirrors_evaluate (hbudget : host.maxSteps = none) (begun nesting : Nat) (e : Expr) :
    Mirrors (fun M ↦ { M with steps := M.steps + begun }) id id (evaluate host nesting e)
      (evaluate host nesting e) := by
  have hmachine : Machine.shifted .same [] begun = fun M ↦ { M with steps := M.steps + begun } := by
    funext M
    rw [Machine.shifted, Machine.recast_same, List.append_nil]
  have hevaluate : Recasts .same [] begun _ _ _ :=
    Task.recasts_run id [] (.inr hbudget) nesting (.evaluate e)
  rw [Recasts, hmachine, funext Interrupt.recast_same, Task.recastAnswer, Task.recast,
    funext Value.recast_same, Expr.recast_same] at hevaluate
  exact hevaluate

/-- A statement that prints a value is counted, and then the expression is evaluated with one nested
call less. -/
theorem execute_print (hbudget : host.maxSteps = none) (nesting : Nat) (e : Expr) (M : Machine) :
    execute host (nesting + 1) (.print e) M = match evaluate host nesting e M with
      | .ok v M' => .ok () { M' with steps := M'.steps + 1, printed := v.text :: M'.printed }
      | .error i M' => .error i { M' with steps := M'.steps + 1 } := by
  have hstep : step host M = .ok () { M with steps := M.steps + 1 } := by rw [step_run, hbudget]
  have hcounted := mirrors_evaluate hbudget 1 nesting e
  rw [execute, bind_of_ok hstep]
  cases hevaluate : evaluate host nesting e M with
  | ok v M' => exact bind_of_ok (hcounted.of_ok hevaluate)
  | error i M' => exact bind_of_error (hcounted.of_error hevaluate)

/-- Running a program that prints the value of an expression is evaluating the expression, apart
from what is printed and counted, unless it overflows. -/
theorem run_print (hbudget : host.maxSteps = none) (e : Expr) (M : Machine)
    (hshallow : ∀ M', run host [.print e] M ≠ .error stackOverflow M') :
    run host [.print e] M = match evaluate host host.nesting e M with
      | .ok v M' => .ok () { M' with steps := M'.steps + 1, printed := v.text :: M'.printed }
      | .error i M' => .error i { M' with steps := M'.steps + 1 } := by
  have hrun : run host [.print e] M = execute host host.nesting (.print e) M := by
    change (execute host host.nesting (.print e) >>= fun _ ↦ pure PUnit.unit) M = _
    rw [bind_pure_unit]
  rw [hrun] at hshallow ⊢
  cases hnesting : host.nesting with
  | zero =>
    rw [hnesting] at hshallow
    exact absurd rfl (hshallow M)
  | succ nesting =>
    rw [hnesting, execute_print hbudget] at hshallow
    have hdeeper : evaluate host (nesting + 1) e M = evaluate host nesting e M := by
      refine ((truncates_deeper host (Nat.le_succ nesting) (.evaluate e)).agrees M).resolve_right ?_
      rintro ⟨M', hoverflow, -⟩
      rw [Task.run] at hoverflow
      rw [hoverflow] at hshallow
      exact hshallow _ rfl
    rw [execute_print hbudget, hdeeper]

end Eval

namespace Session

/-- The two executions end with the same result on the same machine, apart from the line that is
printed and the statement that is counted. -/
theorem exists_result (s : Session) (hbudget : s.host.maxSteps = none) (e : Expr)
    (hshallow : ∀ M, Eval.run s.host [.print e] s.machine ≠ .error stackOverflow M) :
    ∃ (result : Except Interrupt Value) (M : Machine), s.machine.steps ≤ M.steps ∧
      s.perform (textOf s.host e) = s.after M (result.map Value.text) ∧
      s.execute [.print e] = { s with outputs := [] :: s.outputs }.after
        { M with
          steps := M.steps + 1
          printed := (result.toOption.map Value.text).toList ++ M.printed }
        (result.map fun _ ↦ ()) := by
  have hrun := Eval.run_print hbudget e s.machine hshallow
  have hpasses := passes_task s.host s.host.nesting (.evaluate e) s.machine
  rw [Task.run] at hpasses
  cases hevaluate : Eval.evaluate s.host s.host.nesting e s.machine with
  | ok v M =>
    rw [hevaluate] at hrun
    exact ⟨.ok v, M, (hpasses.of_ok hevaluate).steps, perform_of_ok (bind_of_ok hevaluate),
      execute_of_ended (.ok ()) hrun⟩
  | error i M =>
    rw [hevaluate] at hrun
    exact ⟨.error i, M, (hpasses.of_error hevaluate).steps,
      perform_of_error (bind_of_error hevaluate), execute_of_ended (.error i) hrun⟩

/-- What evaluating an expression does, compared with what printing its value does. -/
structure Echoes (evaluated : Evaluation × Session) (printed : Run × Session) : Prop where
  clean : evaluated.1.compilation.hasErrors = false ∧ printed.1.compilation.hasErrors = false
  executed : evaluated.1.execution.isSome = true ∧ printed.1.execution.isSome = true
  /-- There is a value if the program runs to its end, and the value is its last line. -/
  value : ∀ v, evaluated.1.value? = some v ↔
    printed.1.isOk = true ∧ printed.1.printed.getLast? = some v
  lines : printed.1.printed = evaluated.1.printed ++ evaluated.1.value?.toList
  issue : printed.1.issue? = evaluated.1.issue?
  escaped : printed.1.escaped? = evaluated.1.escaped?
  steps : printed.1.execution.map Execution.steps
    = evaluated.1.execution.map fun x ↦ x.steps + 1
  globals : printed.2.globals = evaluated.2.globals
  builtins : printed.2.builtins = evaluated.2.builtins
  /-- Apart from the count, the machine is the same. -/
  machine : printed.2.machine
    = { evaluated.2.machine with steps := evaluated.2.machine.steps + 1 }

/-- Evaluating an expression is the same as printing its value. -/
theorem evaluate_echoes (s : Session) (source : String) (hbudget : s.host.maxSteps = none)
    (hexpression : isExpression s.host.nesting source = true)
    (hdeep : (Lox.compile s.host.nesting (printing source)).tooDeep = false)
    (hoverflow : (s.run (printing source)).1.issue? ≠ some (.anywhere .stackOverflow)) :
    Echoes (s.evaluate source) (s.run (printing source)) := by
  obtain ⟨e, findings, hevaluated, hprinted⟩ := exists_compiled hexpression hdeep
  have hclean : (compileExpression s.host.nesting source).hasErrors = false := by
    rw [hevaluated]
    rfl
  have hclean' : (Lox.compile s.host.nesting (printing source)).hasErrors = false := by
    rw [hprinted]
    rfl
  have hprogram : (Lox.compile s.host.nesting (printing source)).program = [.print e] := by
    rw [hprinted]
    rfl
  rw [run_of_clean hclean', hprogram] at hoverflow ⊢
  rw [evaluate_of_clean hclean (by rw [hevaluated])]
  have hshallow : ∀ M, Eval.run s.host [.print e] s.machine ≠ .error stackOverflow M := by
    intro M hrun
    rw [execute_of_ended (.error stackOverflow) hrun] at hoverflow
    exact hoverflow rfl
  obtain ⟨result, M, hsteps, hperform, hexecute⟩ := s.exists_result hbudget e hshallow
  rw [hperform, hexecute]
  have hcount : some (M.steps + 1 - s.machine.steps) = some (M.steps - s.machine.steps + 1) :=
    congrArg some (Nat.sub_add_comm hsteps)
  cases result with
  | ok v =>
    have hlines : (v.text :: M.printed).reverse = M.printed.reverse ++ [v.text] :=
      List.reverse_cons
    refine ⟨⟨hclean, hclean'⟩, ⟨rfl, rfl⟩, fun w ↦ ?_, hlines, rfl, rfl, hcount, rfl, rfl, rfl⟩
    change some v.text = some w ↔ true = true ∧ (v.text :: M.printed).reverse.getLast? = some w
    simp [hlines]
  | error i =>
    refine ⟨⟨hclean, hclean'⟩, ⟨rfl, rfl⟩, fun w ↦ ?_, (List.append_nil _).symm,
      by cases i <;> rfl, by cases i <;> rfl, hcount, rfl, rfl, rfl⟩
    exact ⟨fun h ↦ (by cases h), fun h ↦ (by cases h.1)⟩

/-- A session in which a function has been declared that prints its argument and returns it. -/
def printingSession : Session :=
  ((start ⟨none, fun _ ↦ 0, 60, 9⟩).run "fun f(a) \x7b print a; return a; \x7d").2

/-- A call of that function, with a comment behind it. -/
theorem evaluate_echoes_call :
    printingSession.host.maxSteps = none ∧
    isExpression printingSession.host.nesting "f(\"a\") // again" = true ∧
    (Lox.compile printingSession.host.nesting (printing "f(\"a\") // again")).tooDeep = false ∧
    (printingSession.run (printing "f(\"a\") // again")).1.issue?
      ≠ some (.anywhere .stackOverflow) ∧
    Echoes (printingSession.evaluate "f(\"a\") // again")
      (printingSession.run (printing "f(\"a\") // again")) :=
  have hbudget : printingSession.host.maxSteps = none := by decide +kernel
  have hexpression : isExpression printingSession.host.nesting "f(\"a\") // again" = true := by
    decide +kernel
  have hdeep : (Lox.compile printingSession.host.nesting
      (printing "f(\"a\") // again")).tooDeep = false := by decide +kernel
  have hoverflow : (printingSession.run (printing "f(\"a\") // again")).1.issue?
      ≠ some (.anywhere .stackOverflow) := by decide +kernel
  ⟨hbudget, hexpression, hdeep, hoverflow,
    evaluate_echoes printingSession _ hbudget hexpression hdeep hoverflow⟩

/-- The function prints once either way, and then there is its value. -/
example : (printingSession.evaluate "f(\"a\") // again").1.value? = some "a" ∧
    (printingSession.run (printing "f(\"a\") // again")).1.printed = ["a", "a"] := by
  decide +kernel

end Session

end Lox
