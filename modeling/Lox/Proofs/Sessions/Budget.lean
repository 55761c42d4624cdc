import Lox.Proofs.Commands
import Lox.Proofs.Scoping.Compilation
import Lox.Proofs.Tasks.Limit

/-!
# The budget of a session

The limit on statements belongs to the session, not to a single text: the count goes on from one
command to the next. So a limit cuts the first command short that would need more, and from then on
no text with a statement in it gets anywhere.
-/

namespace Lox

namespace Execution

variable {α : Type}

/-- Whether the execution was cut short because of a limit on statements. -/
def isCutShort (e : Execution α) : Bool :=
  match e.result with
  | .error i => i.isStepLimit
  | .ok _ => false

/-- The number of statements that were begun and not refused. Only the last one can be refused. -/
def dispatched (e : Execution α) : Nat := if e.isCutShort then e.steps - 1 else e.steps

end Execution

namespace Run

/-- The number of statements that were begun and not refused. -/
def dispatched (r : Run) : Nat := r.execution.elim 0 Execution.dispatched

end Run

/-- The number of statements that were begun for a command and not refused. -/
def Answer.dispatched : Answer → Nat
  | run r => r.dispatched
  | evaluation e => e.execution.elim 0 Execution.dispatched
  | compilation _ => 0

namespace Session

/-- A session as it would be with another limit on statements. -/
def withLimit (s : Session) (limit : Option Int) : Session :=
  { s with host := { s.host with maxSteps := limit } }

variable {α : Type} {n : Nat} {s : Session}

/-! ## What is performed -/

open Eval (Truncates Budgeted)

theorem perform_of_ok {p : Eval α} {a : α} {m : Machine} (h : p s.machine = .ok a m) :
    s.perform p = s.after m (.ok a) := by
  rw [perform, h]

theorem perform_of_error {p : Eval α} {i : Interrupt} {m : Machine}
    (h : p s.machine = .error i m) : s.perform p = s.after m (.error i) := by
  rw [perform, h]

theorem after_fst (s : Session) (m : Machine) (result : Except Interrupt α) :
    (s.after m result).1 = ⟨result, m.printed.reverse, m.steps - s.machine.steps⟩ := rfl

/-- The count goes on from where it was. -/
theorem steps_perform {p : Eval α} (hp : Budgeted n p) :
    s.machine.steps ≤ (s.perform p).2.machine.steps ∧
      (s.perform p).1.dispatched + min n s.machine.steps
        ≤ min n (s.perform p).2.machine.steps ∧
      ((s.perform p).1.isCutShort = true → (s.perform p).1.result = .error (stepLimit n) ∧
        (s.perform p).2.machine.steps = max n s.machine.steps + 1) ∧
      ((s.perform p).1.isCutShort = false →
        (s.perform p).2.machine.steps ≤ max n s.machine.steps) := by
  have h := hp s.machine
  rw [Ends] at h
  cases hrun : p s.machine with
  | ok a m =>
    rw [hrun] at h
    obtain ⟨hle, hmax⟩ := h
    rw [perform_of_ok hrun]
    refine ⟨hle, ?_, ?_, fun _ ↦ hmax⟩
    · change m.steps - s.machine.steps + min n s.machine.steps ≤ min n m.steps
      omega
    · exact fun h ↦ absurd h Bool.false_ne_true
  | error i m =>
    rw [hrun] at h
    rw [perform_of_error hrun]
    obtain ⟨hi, hle, hmax⟩ | ⟨rfl, hsteps⟩ := h
    · have hcut : (s.after m (.error i) : Execution α × Session).1.isCutShort = false := hi
      refine ⟨hle, ?_, fun h ↦ absurd (hcut.symm.trans h) Bool.false_ne_true, fun _ ↦ hmax⟩
      rw [Execution.dispatched, hcut]
      change m.steps - s.machine.steps + min n s.machine.steps ≤ min n m.steps
      omega
    -- One statement was counted and refused, so it is not among those dispatched.
    · have hcut : (s.after m (.error (stepLimit n)) : Execution α × Session).1.isCutShort = true :=
        rfl
      refine ⟨?_, ?_, fun _ ↦ ⟨rfl, hsteps⟩, fun h ↦ absurd (h.symm.trans hcut) Bool.false_ne_true⟩
      · change s.machine.steps ≤ m.steps
        omega
      · rw [Execution.dispatched, if_pos hcut]
        change m.steps - s.machine.steps - 1 + min n s.machine.steps ≤ min n m.steps
        omega

/-- Two sessions with the same machine, one of which may cut short what the other one does. -/
theorem perform_truncates {t u : Session} {p q : Eval α} {stop : Interrupt}
    (hmachine : u.machine = t.machine) (h : Truncates stop p q) :
    ((u.perform q).1 = (t.perform p).1 ∧ (u.perform q).2.machine = (t.perform p).2.machine) ∨
      ((t.perform p).1.result = .error stop ∧
        (t.perform p).1.printed <+: (u.perform q).1.printed ∧
        (t.perform p).1.steps ≤ (u.perform q).1.steps) := by
  obtain heq | ⟨m, hp, hq⟩ := h.agrees t.machine
  · refine .inl ?_
    rw [perform, perform, hmachine, heq]
    cases p t.machine with
    | ok a m => exact ⟨by rw [after_fst, after_fst, hmachine], rfl⟩
    | error i m => exact ⟨by rw [after_fst, after_fst, hmachine], rfl⟩
  · refine .inr ?_
    have hlater : ∀ {m'} (result : Except Interrupt α), m.UpTo m' →
        (t.after m (.error stop) : Execution α × Session).1.printed
            <+: (u.after m' result).1.printed ∧
          (t.after m (.error stop) : Execution α × Session).1.steps
            ≤ (u.after m' result).1.steps := by
      intro m' result hle
      refine ⟨List.reverse_prefix.mpr hle.printed, ?_⟩
      change m.steps - t.machine.steps ≤ m'.steps - u.machine.steps
      rw [hmachine]
      exact Nat.sub_le_sub_right hle.steps _
    rw [perform_of_error hp]
    rw [Eval.Passes, Ends] at hq
    cases hrun : q t.machine with
    | ok a m' =>
      rw [hrun] at hq
      rw [perform_of_ok (hmachine ▸ hrun)]
      exact ⟨rfl, hlater _ hq⟩
    | error i m' =>
      rw [hrun] at hq
      rw [perform_of_error (hmachine ▸ hrun)]
      exact ⟨rfl, hlater _ hq⟩

theorem isCutShort_of_result {e : Execution α} (h : e.result = .error (stepLimit n)) :
    e.isCutShort = true := by
  rw [Execution.isCutShort, h]
  rfl

/-- From no statement counted on, three executions from the same machine: one under the limit `n`,
one under a larger limit and one without any. The first is cut short exactly if the last begins more
than `n` statements. -/
theorem perform_within {t u v : Session} {p q r : Eval α} (hu : u.machine = t.machine)
    (hv : v.machine = t.machine) (hsteps : t.machine.steps = 0) (hp : Budgeted n p)
    (hq : Truncates (stepLimit n) p q) (hr : Truncates (stepLimit n) p r) :
    ((t.perform p).1.isCutShort = true ↔ n < (v.perform r).1.steps) ∧
    ((v.perform r).1.steps ≤ n → (t.perform p).1 = (u.perform q).1 ∧
      (t.perform p).2.machine = (u.perform q).2.machine) ∧
    (n < (v.perform r).1.steps → (t.perform p).1.printed <+: (u.perform q).1.printed ∧
      (t.perform p).1.dispatched = n) := by
  obtain ⟨-, -, hcut, hfull⟩ := steps_perform (s := t) hp
  have hcount : (t.perform p).1.steps = (t.perform p).2.machine.steps := by
    rw [perform]
    cases p t.machine <;> exact (congrArg _ hsteps).trans (Nat.sub_zero _)
  rw [hsteps, ← hcount] at hcut hfull
  have hiff : (t.perform p).1.isCutShort = true ↔ n < (v.perform r).1.steps := by
    constructor
    · intro hshort
      have hn := (hcut hshort).2
      obtain ⟨heq, -⟩ | ⟨-, -, hle⟩ := perform_truncates hv hr
      · rw [heq]
        omega
      · omega
    · intro hn
      cases hshort : (t.perform p).1.isCutShort with
      | true => rfl
      | false =>
        have hle := hfull hshort
        obtain ⟨heq, -⟩ | ⟨hresult, -⟩ := perform_truncates hv hr
        · rw [heq] at hn
          omega
        · rw [isCutShort_of_result hresult] at hshort
          cases hshort
  refine ⟨hiff, fun hn ↦ ?_, fun hn ↦ ?_⟩
  · obtain ⟨heq, hmachine⟩ | ⟨hresult, -⟩ := perform_truncates hu hq
    · exact ⟨heq.symm, hmachine.symm⟩
    · exact absurd (hiff.mp (isCutShort_of_result hresult)) (Nat.not_lt.mpr hn)
  · have hshort := hiff.mpr hn
    refine ⟨?_, ?_⟩
    · obtain ⟨heq, -⟩ | ⟨-, hprinted, -⟩ := perform_truncates hu hq
      · simp only [heq, List.prefix_rfl]
      · exact hprinted
    · rw [Execution.dispatched, if_pos hshort, (hcut hshort).2]
      omega

theorem issue?_eq_stepLimit_iff {e : Execution α}
    (h : e.isCutShort = true → e.result = .error (stepLimit n)) :
    e.issue? = some (.anywhere (.stepLimit n)) ↔ e.isCutShort = true := by
  constructor
  · intro hissue
    rw [Execution.issue?] at hissue
    split at hissue
    · rename_i i hresult
      cases hissue
      exact isCutShort_of_result hresult
    · cases hissue
  · intro hshort
    rw [Execution.issue?, h hshort]
    rfl

/-! ## Runs under limits -/

theorem globals_of_machine {t u : Session} (h : t.machine = u.machine) : t.globals = u.globals := by
  rw [globals, globals, h]

/-- Runs a source text as under another limit on statements. -/
def runWithin (s : Session) (limit : Option Int) (source : String) : Run × Session :=
  (s.withLimit limit).run source

/-- From a machine with no statement counted, a run under a limit is cut short exactly if without a
limit it would begin more statements. If it is not, it is the same under every larger limit. If it
is, it has dispatched as many statements as the limit admits, and printed what is printed first
under every larger limit. -/
theorem runWithin_truncates {source : String} {limit : Option Int} (hsteps : s.machine.steps = 0)
    (hlimit : ∀ k ∈ limit, (n : Int) ≤ k) :
    ((s.runWithin (some (n : Int)) source).1.issue? = some (.anywhere (.stepLimit n)) ↔
      n < (s.runWithin none source).1.begun) ∧
    ((s.runWithin none source).1.begun ≤ n →
      (s.runWithin (some (n : Int)) source).1 = (s.runWithin limit source).1 ∧
      (s.runWithin (some (n : Int)) source).2.globals = (s.runWithin limit source).2.globals) ∧
    (n < (s.runWithin none source).1.begun →
      (s.runWithin (some (n : Int)) source).1.printed <+: (s.runWithin limit source).1.printed ∧
      (s.runWithin (some (n : Int)) source).1.dispatched = n) := by
  cases hclean : (Lox.compile s.host.nesting source).hasErrors with
  | true =>
    have hrun : ∀ limit, s.runWithin limit source
        = (⟨Lox.compile s.host.nesting source, none⟩, s.withLimit limit) :=
      fun limit ↦ run_of_errors (s := s.withLimit limit) hclean
    rw [hrun, hrun, hrun]
    exact ⟨⟨nofun, fun h ↦ absurd h (Nat.not_lt_zero n)⟩, fun _ ↦ ⟨rfl, rfl⟩,
      fun h ↦ absurd h (Nat.not_lt_zero n)⟩
  | false =>
    let opened (limit : Option Int) : Session :=
      { s.withLimit limit with outputs := [] :: s.outputs }
    let program := (Lox.compile s.host.nesting source).program
    have hrun : ∀ limit, s.runWithin limit source = (⟨Lox.compile s.host.nesting source,
        some ((opened limit).perform (Eval.run (opened limit).host program)).1⟩,
        ((opened limit).perform (Eval.run (opened limit).host program)).2) :=
      fun limit ↦ run_of_clean (s := s.withLimit limit) hclean
    have hnone : ∀ k ∈ (none : Option Int), (n : Int) ≤ k := fun _ h ↦ by cases h
    have hbudgeted : Budgeted n (Eval.run (opened (some (n : Int))).host program) :=
      budgeted_run rfl program
    obtain ⟨hiff, hfull, hshort⟩ := perform_within (t := opened (some (n : Int)))
      (u := opened limit) (v := opened none) rfl rfl hsteps hbudgeted
      (truncates_run hlimit program) (truncates_run hnone program)
    obtain ⟨-, -, hcut, -⟩ := steps_perform (s := opened (some (n : Int))) hbudgeted
    rw [hrun, hrun, hrun]
    refine ⟨(issue?_eq_stepLimit_iff fun h ↦ (hcut h).1).trans hiff, fun hn ↦ ?_, hshort⟩
    obtain ⟨hexecution, hmachine⟩ := hfull hn
    exact ⟨congrArg (Run.mk _) (congrArg some hexecution), globals_of_machine hmachine⟩

/-! ## Sessions under a limit -/

/-- For a command something is performed, or nothing happens at all. -/
theorem serve_cases (s : Session) (r : Command) :
    (s.serve r = s ∧ (s.answer r).dispatched = 0 ∧ (s.answer r).issue? = none) ∨
    ∃ (α : Type) (p : Eval α) (t : Session), t.machine = s.machine ∧
      (∀ n : Nat, s.host.maxSteps = some (n : Int) → Budgeted n p) ∧
      s.serve r = (t.perform p).2 ∧ (s.answer r).dispatched = (t.perform p).1.dispatched ∧
      (s.answer r).issue? = (t.perform p).1.issue? := by
  cases r with
  | run source =>
    cases hclean : (Lox.compile s.host.nesting source).hasErrors with
    | true =>
      rw [serve, answer, run_of_errors hclean]
      exact .inl ⟨rfl, rfl, rfl⟩
    | false =>
      rw [serve, answer, run_of_clean hclean]
      exact .inr ⟨Unit, Eval.run s.host _, { s with outputs := [] :: s.outputs }, rfl,
        fun n hn ↦ budgeted_run hn _, rfl, rfl, rfl⟩
  | evaluate source =>
    cases hresult : (compileExpression s.host.nesting source).result with
    | none =>
      rw [serve, answer, evaluate_of_none hresult]
      exact .inl ⟨rfl, rfl, rfl⟩
    | some e =>
      cases hclean : (compileExpression s.host.nesting source).hasErrors with
      | true =>
        rw [serve, answer, evaluate_of_errors hclean]
        exact .inl ⟨rfl, rfl, rfl⟩
      | false =>
        rw [serve, answer, evaluate_of_clean hclean hresult]
        refine .inr ⟨String, textOf s.host e, s, rfl, fun n hn ↦ ?_, rfl, rfl, rfl⟩
        exact Eval.congruent_budgeted.bind (q := Eval.evaluate s.host s.host.nesting e)
          (g := fun v ↦ pure v.text) (budgeted_task hn s.host.nesting (.evaluate e))
          fun _ ↦ (Eval.Quiet.pure _).budgeted
  | compile source => exact .inl ⟨rfl, rfl, rfl⟩

variable {r : Command}

theorem steps_serve (hn : s.host.maxSteps = some (n : Int)) :
    s.machine.steps ≤ (s.serve r).machine.steps ∧
      (s.answer r).dispatched + min n s.machine.steps ≤ min n (s.serve r).machine.steps ∧
      ((s.answer r).issue? = some (.anywhere (.stepLimit n)) → n < (s.serve r).machine.steps) := by
  obtain ⟨hserve, hdispatched, hissue⟩ | ⟨α, p, t, hmachine, hp, hserve, hdispatched, hissue⟩ :=
    s.serve_cases r
  · rw [hserve, hdispatched, hissue]
    exact ⟨Nat.le_refl _, by omega, nofun⟩
  · obtain ⟨hle, hcount, hcut, -⟩ := steps_perform (s := t) (hp n hn)
    rw [hserve, hdispatched, hissue, ← hmachine]
    refine ⟨hle, hcount, fun h ↦ ?_⟩
    have hshort := (issue?_eq_stepLimit_iff fun h ↦ (hcut h).1).mp h
    have := (hcut hshort).2
    omega

theorem steps_serveAll (hn : s.host.maxSteps = some (n : Int)) (commands : List Command) :
    s.machine.steps ≤ (s.serveAll commands).machine.steps := by
  induction commands generalizing s with
  | nil => exact Nat.le_refl _
  | cons r commands ih =>
    exact Nat.le_trans (steps_serve hn).1 (ih (by rw [host_serve]; exact hn))

/-- The number of statements that are dispatched for a row of commands. -/
def dispatched (s : Session) : List Command → Nat
  | [] => 0
  | r :: rest => (s.answer r).dispatched + (s.serve r).dispatched rest

/-- However many commands there are, no more statements are dispatched than the limit admits. -/
theorem dispatched_le (hn : s.host.maxSteps = some (n : Int)) (commands : List Command) :
    s.dispatched commands + min n s.machine.steps ≤ n := by
  induction commands generalizing s with
  | nil =>
    rw [dispatched]
    omega
  | cons r commands ih =>
    have hlater := ih (s := s.serve r) (by rw [host_serve]; exact hn)
    have hfirst := (steps_serve (r := r) hn).2.1
    rw [dispatched]
    omega

/-- Between commands nothing is printed that has not been handed over. -/
theorem printed_serve (h : s.machine.printed = [] ∨ (s.answer r).issue?.isSome) :
    (s.serve r).machine.printed = [] := by
  obtain ⟨hserve, -, hissue⟩ | ⟨α, p, t, -, -, hserve, -⟩ := s.serve_cases r
  · rw [hserve]
    rw [hissue] at h
    exact h.resolve_right nofun
  · rw [hserve, perform]
    cases p t.machine <;> rfl

theorem printed_serveAll (h : s.machine.printed = []) (commands : List Command) :
    (s.serveAll commands).machine.printed = [] := by
  induction commands generalizing s with
  | nil => exact h
  | cons r commands ih => exact ih (printed_serve (.inl h))

/-- A program with a statement in it needs some nesting. -/
theorem exists_nesting {nesting : Nat} {source : String}
    (hclean : (Lox.compile nesting source).hasErrors = false)
    (hprogram : (Lox.compile nesting source).program ≠ []) : ∃ k, nesting = k + 1 := by
  cases hresult : (Lox.compile nesting source).result with
  | none =>
    rw [Analysis.program, hresult] at hprogram
    exact absurd rfl hprogram
  | some program =>
    rw [Analysis.program, hresult] at hprogram
    obtain ⟨-, parsed, -, hresolved, herrors⟩ := Analysis.resolveClean_clean hclean hresult
    obtain ⟨s', hwalk, -⟩ := Scoping.run_eq_some hresolved herrors
    cases parsed with
    | nil =>
      cases hwalk
      exact absurd rfl hprogram
    | cons st rest =>
      cases nesting with
      | zero =>
        rw [List.mapM_cons] at hwalk
        obtain ⟨_, _, hst, -⟩ := bind_eq_ok hwalk
        cases hst
      | succ k => exact ⟨k, rfl⟩

/-- Behind the limit, a program with a statement in it gets nowhere. -/
theorem run_of_exceeded {source : String} (hn : s.host.maxSteps = some (n : Int))
    (hsteps : n < s.machine.steps) (hclean : (Lox.compile s.host.nesting source).hasErrors = false)
    (hprogram : (Lox.compile s.host.nesting source).program ≠ []) :
    (s.run source).1.issue? = some (.anywhere (.stepLimit n)) ∧
      (s.run source).1.printed = s.machine.printed.reverse ∧
      (s.run source).2.globals = s.globals := by
  obtain ⟨k, hk⟩ := exists_nesting hclean hprogram
  obtain ⟨st, rest, hcons⟩ := List.exists_cons_of_ne_nil hprogram
  -- The first statement is counted before anything else is done, and it is one too many.
  have hrefused : Eval.run s.host (st :: rest) s.machine
      = .error (stepLimit n) { s.machine with steps := s.machine.steps + 1 } := by
    have hstep : Eval.step s.host s.machine
        = .error (stepLimit n) { s.machine with steps := s.machine.steps + 1 } := by
      rw [Eval.step_run, hn]
      exact if_pos (by omega)
    refine bind_of_error ?_
    rw [hk, Task.run_execute]
    exact bind_of_error hstep
  rw [run_of_clean hclean, hcons]
  have hperform : s.execute (st :: rest)
      = after { s with outputs := [] :: s.outputs } { s.machine with steps := s.machine.steps + 1 }
        (.error (stepLimit n)) := perform_of_error hrefused
  rw [hperform]
  exact ⟨rfl, rfl, rfl⟩

/-- The limit on statements only cuts short.

A first run is cut short under the limit `n` exactly if it would begin more than `n` statements
without a limit. If it is not, it is the same under every larger limit. If it is, then `n`
statements have been dispatched, and what has been printed comes first in what is printed under
every larger limit. Over a whole session no more than `n` statements are dispatched. And once a
command has been cut short, every later program with a statement in it is cut short at once: it
prints nothing and changes no global. -/
theorem limit_only_cuts_short (n : Nat) :
    (∀ (s : Session) (source : String) (limit : Option Int), s.machine.steps = 0 →
      (∀ k ∈ limit, (n : Int) ≤ k) →
      ((s.runWithin (some (n : Int)) source).1.issue? = some (.anywhere (.stepLimit n)) ↔
        n < (s.runWithin none source).1.begun) ∧
      ((s.runWithin none source).1.begun ≤ n →
        (s.runWithin (some (n : Int)) source).1 = (s.runWithin limit source).1 ∧
        (s.runWithin (some (n : Int)) source).2.globals
          = (s.runWithin limit source).2.globals) ∧
      (n < (s.runWithin none source).1.begun →
        (s.runWithin (some (n : Int)) source).1.printed
          <+: (s.runWithin limit source).1.printed ∧
        (s.runWithin (some (n : Int)) source).1.dispatched = n)) ∧
    (∀ (s : Session) (commands : List Command), s.host.maxSteps = some (n : Int) →
      s.machine.steps = 0 → s.dispatched commands ≤ n) ∧
    (∀ (s t : Session) (r : Command) (between : List Command) (source : String),
      s.host.maxSteps = some (n : Int) →
      (s.answer r).issue? = some (.anywhere (.stepLimit n)) → t = (s.serve r).serveAll between →
      (Lox.compile t.host.nesting source).hasErrors = false →
      (Lox.compile t.host.nesting source).program ≠ [] →
      (t.run source).1.issue? = some (.anywhere (.stepLimit n)) ∧
        (t.run source).1.printed = [] ∧ (t.run source).2.globals = t.globals) := by
  refine ⟨fun s source limit hsteps hlimit ↦ runWithin_truncates hsteps hlimit,
    fun s commands hn hsteps ↦ ?_, fun s t r between source hn hissue ht hclean hprogram ↦ ?_⟩
  · exact Nat.le_trans (Nat.le_add_right _ _) (dispatched_le hn commands)
  · have hhost : (s.serve r).host = s.host := host_serve s r
    have hexceeded : n < t.machine.steps := by
      rw [ht]
      exact Nat.lt_of_lt_of_le ((steps_serve hn).2.2 hissue)
        (steps_serveAll (by rw [hhost]; exact hn) between)
    have hprinted : t.machine.printed = [] := by
      rw [ht]
      exact printed_serveAll (printed_serve (.inr (by rw [hissue]; rfl))) between
    have hlimit : t.host.maxSteps = some (n : Int) := by
      rw [ht, host_serveAll, hhost]
      exact hn
    obtain ⟨hrefused, hlines, hglobals⟩ := run_of_exceeded hlimit hexceeded hclean hprogram
    exact ⟨hrefused, by rw [hlines, hprinted]; rfl, hglobals⟩

/-- Three statements under a limit of two, and another one later. -/
theorem limit_only_cuts_short_three :
    (((start ⟨none, fun _ ↦ 0, 60, 9⟩).runWithin (some ((2 : Nat) : Int))
        "print nil; print nil; print nil;").1.printed
        <+: ((start ⟨none, fun _ ↦ 0, 60, 9⟩).runWithin (some 5)
          "print nil; print nil; print nil;").1.printed ∧
      ((start ⟨none, fun _ ↦ 0, 60, 9⟩).runWithin (some ((2 : Nat) : Int))
        "print nil; print nil; print nil;").1.dispatched = 2) ∧
    (start ⟨some ((2 : Nat) : Int), fun _ ↦ 0, 60, 9⟩).dispatched
      [.run "print nil; print nil; print nil;", .run "print nil;"] ≤ 2 ∧
    (((start ⟨some ((2 : Nat) : Int), fun _ ↦ 0, 60, 9⟩).serve
        (.run "print nil; print nil; print nil;")).run "print nil;").1.issue?
      = some (.anywhere (.stepLimit ((2 : Nat) : Int))) := by
  obtain ⟨t, ht⟩ : ∃ t, t = (start ⟨some ((2 : Nat) : Int), fun _ ↦ 0, 60, 9⟩).serve
      (.run "print nil; print nil; print nil;") := ⟨_, rfl⟩
  have hnesting : t.host.nesting = 60 := by rw [ht, host_serve, start]
  have hprogram : (Lox.compile 60 "print nil;").program ≠ [] := by
    intro h
    have hlength : (Lox.compile 60 "print nil;").program.length = 1 := by decide +kernel
    rw [h] at hlength
    cases hlength
  refine ⟨((limit_only_cuts_short 2).1 _ _ (some 5) rfl ?_).2.2 (by decide +kernel),
    (limit_only_cuts_short 2).2.1 _ _ rfl rfl, ?_⟩
  · rintro _ ⟨⟩
    decide
  · rw [← ht]
    refine ((limit_only_cuts_short 2).2.2 (start ⟨some ((2 : Nat) : Int), fun _ ↦ 0, 60, 9⟩) t
      (.run "print nil; print nil; print nil;") [] _ rfl (by decide +kernel) ht ?_ ?_).1
    · rw [hnesting]
      decide +kernel
    · rw [hnesting]
      exact hprogram

end Session

end Lox
