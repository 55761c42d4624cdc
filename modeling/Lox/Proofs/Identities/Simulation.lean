import Lox.Proofs.Identities.Fresh
import Lox.Proofs.Recasting.Evaluation

/-!
# A table serves for the distances

A session with a table does command by command what a session does in which the distances are filled
in. The identities that a command leaves on the machine are those of its own text, if any are new.

Both facts come from the evaluator doing the same on a machine that is recast: once with the
distances in the place of the identities and without a table, and once with some identities taken
out that are not there anyway.
-/

namespace Lox

/-! ## Executions -/

theorem Machine.shifted_zero (ρ : Recasting) (M : Machine) : M.shifted ρ [] 0 = M.recast ρ := by
  rw [shifted, List.append_nil]
  rfl

theorem Execution.recast_recast {α : Type} (ρ σ : Recasting) (x : Execution α) :
    (x.recast ρ).recast σ = x.recast (ρ.andThen σ) := by
  obtain ⟨result, printed, steps⟩ := x
  cases result with
  | ok a => rfl
  | error i =>
    exact congrArg (fun i ↦ Execution.mk (.error i) printed steps) (i.recast_recast ρ σ)

/-- What can be seen of an execution does not depend on what is in the slots. -/
theorem Execution.blank_recast {α : Type} (φ : Option Nat → Option Nat) (x : Execution α) :
    (x.recast (.slots φ)).recast .blank = x.recast .blank := x.recast_recast (.slots φ) .blank

theorem Session.perform_recast {α : Type} {ρ : Recasting} {p q : Eval α} (s : Session)
    (h : Eval.Recasts ρ [] 0 id p q) :
    (s.recast ρ).perform q = ((s.perform p).1.recast ρ, (s.perform p).2.recast ρ) := by
  have hq := h s.machine
  rw [Machine.shifted_zero] at hq
  rw [perform, recast, hq, perform]
  cases p s.machine with
  | ok a M =>
    rw [carried, Machine.shifted_zero]
    rfl
  | error i M =>
    rw [carried, Machine.shifted_zero]
    rfl

/-- If something is done that identities which are not on the machine make no difference to, they
are not on the machine afterwards. -/
theorem Session.holdsOnly_perform {α : Type} {s : Session} {p : Nat → Bool} {q q' : Eval α}
    (hs : s.machine.HoldsOnly p) (h : Eval.Recasts (.only p) [] 0 id q q') :
    (s.perform q').2.machine.HoldsOnly p := by
  have hrecast : s.recast (.only p) = s := congrArg (fun M ↦ ({ s with machine := M } : Session)) hs
  have hperform := s.perform_recast h
  rw [hrecast] at hperform
  rw [hperform]
  exact .of_recast p _

theorem Analysis.recastRow_program (ρ : Recasting) (a : Analysis (List Stmt)) :
    Stmt.recastRow ρ a.program = (a.result.map (Stmt.recastRow ρ)).getD [] := by
  rw [program]
  cases a.result <;> rfl

namespace Engine

/-! ## With the distances filled in -/

section Located

variable (e : Engine)

/-- A program that is recast runs as before, if the tables make the same of every slot. -/
theorem recasts_runProgram (ρ : Recasting) (φ : Option Nat → Option Nat) (host : Host)
    (program : List Stmt) :
    Eval.Recasts ρ [] 0 id
      (program.forM fun st ↦ Task.runThrough (φ ∘ ρ.slot) host host.nesting (.execute st))
      ((Stmt.recastRow ρ program).forM fun st ↦
        Task.runThrough φ host host.nesting (.execute st)) := by
  rw [Stmt.recastRow_eq_map]
  exact .forM fun st _ ↦ Task.recasts_runThrough ρ [] (.inl rfl) φ host.nesting (.execute st)

theorem recasts_textOf (ρ : Recasting) (φ : Option Nat → Option Nat) (host : Host) (tree : Expr) :
    Eval.Recasts ρ [] 0 id
      (do return (← Task.runThrough (φ ∘ ρ.slot) host host.nesting (.evaluate tree)).text)
      (do return (← Task.runThrough φ host host.nesting (.evaluate (tree.recast ρ))).text) :=
  (Task.recasts_runThrough ρ [] (.inl rfl) φ host.nesting (.evaluate tree)).bind fun v ↦
    .pure (v.text_recast ρ).symm

/-- Without the table and with the distances filled in, the same is executed. -/
theorem execute_located (program : List Stmt) :
    e.located.execute (Stmt.recastRow (.slots e.locals.read) program)
      = ((e.execute program).1.recast (.slots e.locals.read), (e.execute program).2.located) := by
  have hrun := recasts_runProgram (.slots e.locals.read) id e.session.host program
  simp only [Task.runThrough_id] at hrun
  exact Session.perform_recast { e.session with outputs := [] :: e.session.outputs } hrun

theorem perform_textOf_located (tree : Expr) :
    e.located.perform (Session.textOf e.session.host (tree.recast (.slots e.locals.read)))
      = ((e.session.perform (e.textOf tree)).1.recast (.slots e.locals.read),
        (e.session.perform (e.textOf tree)).2.recast (.slots e.locals.read)) := by
  have hrun := recasts_textOf (.slots e.locals.read) id e.session.host tree
  simp only [Task.runThrough_id] at hrun
  exact e.session.perform_recast hrun

end Located

/-! ## One command -/

variable {e : Engine} {source : String}

theorem hasErrors_compile (e : Engine) (source : String) :
    (e.compile source).1.hasErrors = (Lox.compile e.session.host.nesting source).hasErrors :=
  e.hasErrors_analyze _ source

theorem hasErrors_compileExpression (e : Engine) (source : String) :
    (e.compileExpression source).1.hasErrors
      = (Lox.compileExpression e.session.host.nesting source).hasErrors :=
  e.hasErrors_analyze (.expression _) source

theorem run_of_errors (h : (Lox.compile e.session.host.nesting source).hasErrors = true) :
    e.run source = (⟨(e.compile source).1, none⟩, (e.compile source).2) := by
  rw [run]
  exact if_pos ((e.hasErrors_compile source).trans h)

theorem run_of_clean (h : (Lox.compile e.session.host.nesting source).hasErrors = false) :
    e.run source = (⟨(e.compile source).1,
        some ((e.compile source).2.execute (e.compile source).1.program).1⟩,
      ((e.compile source).2.execute (e.compile source).1.program).2) := by
  have hclean := (e.hasErrors_compile source).trans h
  rw [run]
  exact if_neg fun herrors ↦ Bool.false_ne_true (hclean.symm.trans herrors)

theorem evaluate_of_errors
    (h : (Lox.compileExpression e.session.host.nesting source).hasErrors = true) :
    e.evaluate source = (⟨(e.compileExpression source).1, none⟩,
      (e.compileExpression source).2) := by
  have herrors := (e.hasErrors_compileExpression source).trans h
  rw [evaluate]
  generalize e.compileExpression source = compiled at herrors ⊢
  obtain ⟨c, e'⟩ := compiled
  dsimp only at herrors ⊢
  rw [herrors]
  cases c.result <;> rfl

theorem evaluate_of_none (h : (e.compileExpression source).1.result = none) :
    e.evaluate source = (⟨(e.compileExpression source).1, none⟩,
      (e.compileExpression source).2) := by
  rw [evaluate]
  generalize e.compileExpression source = compiled at h ⊢
  obtain ⟨c, e'⟩ := compiled
  dsimp only at h ⊢
  rw [h]

theorem evaluate_of_clean {tree : Expr}
    (h : (Lox.compileExpression e.session.host.nesting source).hasErrors = false)
    (hresult : (e.compileExpression source).1.result = some tree) :
    e.evaluate source = (⟨(e.compileExpression source).1,
        some (e.session.perform ((e.compileExpression source).2.textOf tree)).1⟩,
      { (e.compileExpression source).2 with
        session := (e.session.perform ((e.compileExpression source).2.textOf tree)).2 }) := by
  have hclean := (e.hasErrors_compileExpression source).trans h
  have hsession : (e.compileExpression source).2.session = e.session := rfl
  rw [evaluate]
  generalize e.compileExpression source = compiled at hclean hresult hsession ⊢
  obtain ⟨c, e'⟩ := compiled
  dsimp only at hclean hresult hsession ⊢
  rw [hclean, hresult, ← hsession]

/-- The table has for a program without errors what would have been filled in. -/
theorem recastRow_compile (ht : e.locals.EmptyFrom e.nextKey)
    (h : (Lox.compile e.session.host.nesting source).hasErrors = false) :
    Stmt.recastRow (.slots (e.compile source).2.locals.read) (e.compile source).1.program
      = (Lox.compile e.session.host.nesting source).program := by
  have hfilled : (e.compile source).1.result.map
        (Stmt.recastRow (.slots (e.compile source).2.locals.read))
      = (Lox.compile e.session.host.nesting source).result :=
    recast_locals_analyze (F := .program e.session.host.nesting) ht h
  rw [Analysis.recastRow_program, hfilled]
  rfl

/-- Running a text shows the same as it does with the distances filled in, and leaves the same
session. -/
theorem WellKeyed.run_located (h : e.WellKeyed) (source : String) :
    (e.run source).1.blank = (e.located.run source).1.blank ∧
      (e.run source).2.located = (e.located.run source).2 := by
  have hanalyzed : (e.compile source).2.located = e.located := h.located_analyze _ source
  have hcompilation : (e.compile source).1.blank (Stmt.recastRow .blank)
      = (Lox.compile e.session.host.nesting source).blank (Stmt.recastRow .blank) :=
    e.blank_analyze (.program _) source
  cases hclean : (Lox.compile e.session.host.nesting source).hasErrors with
  | true =>
    rw [run_of_errors hclean, Session.run_of_errors (s := e.located) hclean]
    exact ⟨congrArg (Run.mk · none) hcompilation, hanalyzed⟩
  | false =>
    have hexecute := (e.compile source).2.execute_located (e.compile source).1.program
    rw [recastRow_compile h.locals hclean, hanalyzed] at hexecute
    rw [run_of_clean hclean, Session.run_of_clean (s := e.located) hclean]
    change _ = Run.blank ⟨Lox.compile e.session.host.nesting source,
      some (e.located.execute (Lox.compile e.session.host.nesting source).program).1⟩ ∧
      _ = (e.located.execute (Lox.compile e.session.host.nesting source).program).2
    rw [hexecute]
    refine ⟨?_, rfl⟩
    rw [Run.blank, Run.blank, hcompilation, Option.map_some, Option.map_some,
      Execution.blank_recast]

/-- Evaluating an expression shows the same as it does with the distances filled in, and leaves the
same session. -/
theorem WellKeyed.evaluate_located (h : e.WellKeyed) (source : String) :
    (e.evaluate source).1.blank = (e.located.evaluate source).1.blank ∧
      (e.evaluate source).2.located = (e.located.evaluate source).2 := by
  have hanalyzed : (e.compileExpression source).2.located = e.located := h.located_analyze _ source
  have hcompilation : (e.compileExpression source).1.blank (Expr.recast .blank)
      = (Lox.compileExpression e.session.host.nesting source).blank (Expr.recast .blank) :=
    e.blank_analyze (.expression _) source
  cases hclean : (Lox.compileExpression e.session.host.nesting source).hasErrors with
  | true =>
    rw [evaluate_of_errors hclean, Session.evaluate_of_errors (s := e.located) hclean]
    exact ⟨congrArg (Evaluation.mk · none) hcompilation, hanalyzed⟩
  | false =>
    have hfilled : (e.compileExpression source).1.result.map
          (Expr.recast (.slots (e.compileExpression source).2.locals.read))
        = (Lox.compileExpression e.session.host.nesting source).result :=
      recast_locals_analyze (F := .expression e.session.host.nesting) h.locals hclean
    cases htree : (e.compileExpression source).1.result with
    | none =>
      rw [htree] at hfilled
      rw [evaluate_of_none htree, Session.evaluate_of_none (s := e.located) hfilled.symm]
      exact ⟨congrArg (Evaluation.mk · none) hcompilation, hanalyzed⟩
    | some tree =>
      have hperform := (e.compileExpression source).2.perform_textOf_located tree
      rw [hanalyzed] at hperform
      rw [htree] at hfilled
      rw [evaluate_of_clean hclean htree,
        Session.evaluate_of_clean (s := e.located) hclean hfilled.symm]
      dsimp only
      rw [show e.located.host = (e.compileExpression source).2.session.host from rfl, hperform]
      refine ⟨?_, rfl⟩
      rw [Evaluation.blank, Evaluation.blank, Option.map_some, Option.map_some,
        Execution.blank_recast]
      exact congrArg (Evaluation.mk · _) hcompilation

/-! ## The identities on the machine -/

/-- The engine when the text of a command has been analyzed. -/
def analyzed (e : Engine) : Command → Engine
  | .run source | .compile source => (e.compile source).2
  | .evaluate source => (e.compileExpression source).2

/-- What is executed for a command changes nothing but the session. -/
theorem serve_eq (e : Engine) (c : Command) :
    e.serve c = { e.analyzed c with session := (e.serve c).session } := by
  cases c with
  | run source =>
    cases h : (Lox.compile e.session.host.nesting source).hasErrors with
    | true =>
      rw [serve, run_of_errors h]
      rfl
    | false =>
      rw [serve, run_of_clean h]
      rfl
  | evaluate source =>
    cases h : (Lox.compileExpression e.session.host.nesting source).hasErrors with
    | true =>
      rw [serve, evaluate_of_errors h]
      rfl
    | false =>
      cases htree : (e.compileExpression source).1.result with
      | none =>
        rw [serve, evaluate_of_none htree]
        rfl
      | some tree =>
        rw [serve, evaluate_of_clean h htree]
        rfl
  | compile source => rfl

variable {c : Command} {p : Nat → Bool}

/-- A command leaves only those identities on the machine that have been there before or belong to
its own text. -/
theorem holdsOnly_serve (h : e.session.machine.HoldsOnly p)
    (hfresh : ∀ key, e.nextKey ≤ key → key < (e.analyzed c).nextKey → p key = true) :
    (e.serve c).session.machine.HoldsOnly p := by
  -- What is executed is a tree with new identities only, so taking out others does not change it.
  have hfilter : ∀ key, e.nextKey ≤ key → key < (e.analyzed c).nextKey →
      Option.filter p (some key) = some key := fun key hle hlt ↦
    Option.filter_some_pos (hfresh key hle hlt)
  cases c with
  | run source =>
    cases hclean : (Lox.compile e.session.host.nesting source).hasErrors with
    | true =>
      rw [serve, run_of_errors hclean]
      exact h
    | false =>
      have hrun := recasts_runProgram (.only p) (e.compile source).2.locals.read e.session.host
        (e.compile source).1.program
      have hown : (e.compile source).1.result.map (Stmt.recastRow (.only p))
        = (e.compile source).1.result := recast_analyze (F := .program _) hfilter
      have hprogram : Stmt.recastRow (.only p) (e.compile source).1.program
          = (e.compile source).1.program := by
        rw [Analysis.recastRow_program, hown]
        rfl
      rw [hprogram] at hrun
      rw [serve, run_of_clean hclean]
      exact Session.holdsOnly_perform
        (s := { e.session with outputs := [] :: e.session.outputs }) h hrun
  | evaluate source =>
    cases hclean : (Lox.compileExpression e.session.host.nesting source).hasErrors with
    | true =>
      rw [serve, evaluate_of_errors hclean]
      exact h
    | false =>
      cases htree : (e.compileExpression source).1.result with
      | none =>
        rw [serve, evaluate_of_none htree]
        exact h
      | some tree =>
        have hrun := recasts_textOf (.only p) (e.compileExpression source).2.locals.read
          e.session.host tree
        have hown : (e.compileExpression source).1.result.map (Expr.recast (.only p))
          = (e.compileExpression source).1.result := recast_analyze (F := .expression _) hfilter
        rw [htree] at hown
        rw [show tree.recast (.only p) = tree from Option.some.inj hown] at hrun
        rw [serve, evaluate_of_clean hclean htree]
        exact Session.holdsOnly_perform h hrun
  | compile source => exact h

/-! ## Rows of commands -/

theorem nextKey_le_analyzed (e : Engine) (c : Command) : e.nextKey ≤ (e.analyzed c).nextKey := by
  cases c <;> exact e.nextKey_le_analyze _ _

theorem nextKey_le_serve (e : Engine) (c : Command) : e.nextKey ≤ (e.serve c).nextKey := by
  rw [serve_eq]
  exact e.nextKey_le_analyzed c

theorem locals_serve {key : Nat} (h : key < e.nextKey ∨ (e.serve c).nextKey ≤ key) :
    (e.serve c).locals key = e.locals key := by
  rw [serve_eq] at h ⊢
  cases c <;> exact locals_analyze h

/-- Identities that have been given out and are not on the machine never come back. -/
theorem holdsOnly_serveAll (h : e.session.machine.HoldsOnly p)
    (hfresh : ∀ key, e.nextKey ≤ key → p key = true) (commands : List Command) :
    (e.serveAll commands).session.machine.HoldsOnly p := by
  induction commands generalizing e with
  | nil => exact h
  | cons c rest ih =>
    exact ih (holdsOnly_serve h fun key hkey _ ↦ hfresh key hkey)
      fun key hkey ↦ hfresh key (Nat.le_trans (e.nextKey_le_serve c) hkey)

namespace WellKeyed

variable (h : e.WellKeyed)
include h

theorem serve (c : Command) : (e.serve c).WellKeyed where
  machine := holdsOnly_serve
    (h.machine.mono fun key hkey ↦
      decide_eq_true (Nat.lt_of_lt_of_le (of_decide_eq_true hkey) (e.nextKey_le_serve c)))
    fun key _ hkey ↦ decide_eq_true (by rwa [serve_eq])
  locals key hkey := (locals_serve (.inr hkey)).trans
    (h.locals key (Nat.le_trans (e.nextKey_le_serve c) hkey))

/-- A command is answered as it is with the distances filled in, and leaves the same session. -/
theorem serve_located (c : Command) : (e.answer c).blank = (e.located.answer c).blank ∧
    (e.serve c).located = e.located.serve c := by
  cases c with
  | run source => exact (h.run_located source).imp_left (congrArg Answer.run)
  | evaluate source => exact (h.evaluate_located source).imp_left (congrArg Answer.evaluation)
  | compile source =>
    exact ⟨congrArg Answer.compilation (e.blank_analyze (.program _) source),
      h.located_analyze _ source⟩

/-- A row of commands is answered as it is with the distances filled in. -/
theorem history_located (commands : List Command) :
    e.history commands = e.located.history commands := by
  induction commands generalizing e with
  | nil => rfl
  | cons c rest ih =>
    obtain ⟨hanswer, hsession⟩ := h.serve_located c
    rw [history, Session.history, ih (h.serve c), hanswer, hsession]

theorem serveAll (commands : List Command) : (e.serveAll commands).WellKeyed ∧
    (e.serveAll commands).located = e.located.serveAll commands := by
  induction commands generalizing e with
  | nil => exact ⟨h, rfl⟩
  | cons c rest ih =>
    have hrest := ih (h.serve c)
    rw [(h.serve_located c).2] at hrest
    exact hrest

end WellKeyed

end Engine

end Lox
