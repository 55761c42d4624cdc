import Lox.Proofs.Commands

/-!
# The outputs of a session

Every run that is executed opens an output, and holds on to it: once there is a later one, nothing
is added to it any more. In between there may be expressions that are evaluated, and what they print
goes astray. It is added to the output of the run before them, although that run is over.

So the output of a run is what the run itself printed, followed by the lines that went astray before
the next run was executed. Nothing else ever changes it: neither a text that is only compiled or has
errors, nor any later run.
-/

namespace Lox

namespace Session

variable {s : Session} {source : String}

/-! ## One command -/

theorem addLines_nil (outputs : List (List String)) : addLines [] outputs = outputs := by
  cases outputs with
  | nil => rfl
  | cons latest earlier => rw [addLines, List.append_nil]

theorem addLines_append (lines more : List String) (outputs : List (List String)) :
    addLines more (addLines lines outputs) = addLines (lines ++ more) outputs := by
  cases outputs with
  | nil => rfl
  | cons latest earlier => rw [addLines, addLines, addLines, List.append_assoc]

theorem outputs_perform {α : Type} (s : Session) (p : Eval α) :
    (s.perform p).2.outputs = addLines (s.perform p).1.printed s.outputs := by
  rw [perform]
  cases p s.machine <;> rfl

/-- A run that is executed opens an output for what it prints. -/
theorem outputs_run (hclean : (Lox.compile s.host.nesting source).hasErrors = false) :
    (s.run source).2.outputs = (s.run source).1.printed :: s.outputs := by
  rw [run_of_clean hclean]
  exact outputs_perform { s with outputs := [] :: s.outputs } _

/-- What an expression prints goes to the output that is there. -/
theorem outputs_evaluate (s : Session) (source : String) :
    (s.evaluate source).2.outputs = addLines (s.evaluate source).1.printed s.outputs := by
  cases hresult : (compileExpression s.host.nesting source).result with
  | none =>
    rw [evaluate_of_none hresult]
    exact (addLines_nil _).symm
  | some e =>
    cases hclean : (compileExpression s.host.nesting source).hasErrors with
    | true =>
      rw [evaluate_of_errors hclean]
      exact (addLines_nil _).symm
    | false =>
      rw [evaluate_of_clean hclean hresult]
      exact outputs_perform s _

/-! ## Rows of commands -/

/-- The lines that expressions print before the next run is executed. -/
def stray (s : Session) : List Command → List String
  | [] => []
  | .run source :: rest =>
    if (Lox.compile s.host.nesting source).hasErrors then s.stray rest else []
  | .evaluate source :: rest => (s.evaluate source).1.printed ++ (s.evaluate source).2.stray rest
  | .compile _ :: rest => s.stray rest

/-- Outputs lie in the order of their runs, the latest first, and the first of those that were there
before gets the stray lines. -/
theorem outputs_serveAll (s : Session) (commands : List Command) :
    ∃ later, later.length = (accepted s.host.nesting commands).length ∧
      (s.serveAll commands).outputs = later ++ addLines (s.stray commands) s.outputs := by
  induction commands generalizing s with
  | nil => exact ⟨[], rfl, (addLines_nil _).symm⟩
  | cons r rest ih =>
    obtain ⟨later, hlength, houtputs⟩ := ih (s.serve r)
    rw [host_serve] at hlength
    rw [accepted, List.filterMap_cons, ← accepted]
    change ∃ later, _ ∧ ((s.serve r).serveAll rest).outputs = _
    cases r with
    | run source =>
      cases hclean : (Lox.compile s.host.nesting source).hasErrors with
      | true =>
        rw [serve, run_of_errors hclean] at houtputs
        rw [serve, run_of_errors hclean, stray, if_pos hclean]
        refine ⟨later, ?_, houtputs⟩
        rw [Command.program?]
        simpa [hclean] using hlength
      | false =>
        -- The run takes the stray lines of the rest, so what was there before is left as it is.
        refine ⟨later ++ [(s.run source).1.printed ++ (s.serve (.run source)).stray rest], ?_, ?_⟩
        · rw [Command.program?]
          simpa [hclean] using hlength
        · rw [houtputs, serve, outputs_run hclean, addLines, stray, hclean,
            if_neg Bool.false_ne_true, addLines_nil, List.append_assoc]
          rfl
    | evaluate source =>
      refine ⟨later, hlength, ?_⟩
      rw [houtputs, serve, outputs_evaluate, addLines_append, stray]
    | compile source => exact ⟨later, hlength, houtputs⟩

/-- Only expressions that are evaluated let lines go astray. -/
theorem stray_eq_nil {commands : List Command} (h : ∀ text, Command.evaluate text ∉ commands) :
    s.stray commands = [] := by
  induction commands with
  | nil => rfl
  | cons r rest ih =>
    have hrest := ih fun text hmem ↦ h text (List.mem_cons_of_mem _ hmem)
    cases r with
    | run source =>
      rw [stray, hrest]
      exact ite_self _
    | evaluate text => exact absurd List.mem_cons_self (h text)
    | compile text => exact hrest

/-- At the end of a session, the output of a run holds what the run printed, in order, followed by
the lines that expressions printed between it and the next run that was executed, and nothing else.
So it holds exactly what the run printed if no expression is evaluated later. -/
theorem output_of_run (host : Host) (before after : List Command) (source : String)
    (hclean : (Lox.compile host.nesting source).hasErrors = false) :
    ((start host).serveAll (before ++ .run source :: after)).outputs[(accepted host.nesting
        after).length]?
      = some ((((start host).serveAll before).run source).1.printed
        ++ (((start host).serveAll before).run source).2.stray after) ∧
    ((∀ text, Command.evaluate text ∉ after) →
      (((start host).serveAll before).run source).2.stray after = []) := by
  refine ⟨?_, stray_eq_nil⟩
  obtain ⟨s, hs⟩ : ∃ s, s = (start host).serveAll before := ⟨_, rfl⟩
  have hhost : s.host = host := by rw [hs, host_serveAll, start]
  obtain ⟨later, hlength, houtputs⟩ := outputs_serveAll (s.serve (.run source)) after
  rw [host_serve, hhost] at hlength
  rw [serve, outputs_run (hhost ▸ hclean), addLines] at houtputs
  have hsplit : (start host).serveAll (before ++ .run source :: after)
      = (s.run source).2.serveAll after := by
    rw [hs, serveAll, List.foldl_append, List.foldl_cons]
    rfl
  rw [hsplit, houtputs, ← hlength, List.getElem?_append_right (Nat.le_refl _), Nat.sub_self, hs]
  rfl

/-- A run declares a function and prints nothing, and an expression calls the function. The run
after that has an output of its own. -/
theorem output_of_run_declared :
    (Lox.compile 60 "fun f() \x7b print nil; \x7d").hasErrors = false ∧
    ((start ⟨none, fun _ ↦ 0, 60, 9⟩).serveAll ([] ++ .run "fun f() \x7b print nil; \x7d" ::
      [.evaluate "f()", .run "print true;"])).outputs[(1 : Nat)]? = some ["nil"] := by
  have hcount : (accepted (start ⟨none, fun _ ↦ 0, 60, 9⟩).host.nesting
      [.evaluate "f()", .run "print true;"]).length = 1 := by decide +kernel
  have h := (output_of_run ⟨none, fun _ ↦ 0, 60, 9⟩ [] [.evaluate "f()", .run "print true;"]
    "fun f() \x7b print nil; \x7d" (by decide +kernel)).1
  refine ⟨by decide +kernel, ?_⟩
  rw [← hcount]
  exact h.trans (by decide +kernel)

/-- The run is over and has printed nothing, but then its output gets a line. -/
theorem output_changes_after_run :
    ((start ⟨none, fun _ ↦ 0, 60, 9⟩).run "fun f() \x7b print nil; \x7d").1.printed = [] ∧
    ((start ⟨none, fun _ ↦ 0, 60, 9⟩).run "fun f() \x7b print nil; \x7d").2.outputs = [[]] ∧
    ((start ⟨none, fun _ ↦ 0, 60, 9⟩).serveAll
      [.run "fun f() \x7b print nil; \x7d", .evaluate "f()"]).outputs = [["nil"]] := by
  decide +kernel

end Session

end Lox
