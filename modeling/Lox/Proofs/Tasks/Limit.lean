import Lox.Proofs.Tasks.Chain
import Lox.Proofs.Tasks.Conduct

/-!
# The limit on statements

Statements are counted one by one, and the first one beyond the limit ends the program. Nothing in
the language catches that, so a lower limit only cuts a run short.

Two facts say so. `Budgeted` is about one run: it ends with the count at the limit at most, or it is
cut short with the count right behind it. `Truncates` is about two runs from the same machine: they
are the same, or the first one is cut short and the second one ends later, with all that the first
one had printed.
-/

namespace Lox

/-- What a program ends with if it begins one statement more than the limit. -/
def stepLimit (n : Nat) : Interrupt := .issue (.anywhere (.stepLimit n))

theorem stepLimit_ne_returning (n : Nat) (v : Value) : stepLimit n ≠ .returning v := by
  rw [stepLimit]
  exact nofun

/-- A machine is later than another one: no statement is uncounted and no line is taken back. -/
structure Machine.UpTo (M M' : Machine) : Prop where
  steps : M.steps ≤ M'.steps
  printed : M.printed <:+ M'.printed

theorem Machine.SameStep.upTo {M M' : Machine} (h : M.SameStep M') : M.UpTo M' :=
  ⟨Nat.le_of_eq h.steps.symm, h.printed⟩

theorem Machine.UpTo.trans {M M' M'' : Machine} (h : M.UpTo M') (h' : M'.UpTo M'') : M.UpTo M'' :=
  ⟨Nat.le_trans h.steps h'.steps, h.printed.trans h'.printed⟩

namespace Eval

variable {α β : Type} {n : Nat} {M M₁ : Machine} {stop : Interrupt}

/-- From a machine on, a computation ends with a later one than another given one. -/
def Passes (q : Eval α) (M M₁ : Machine) : Prop :=
  Ends q M (fun _ M' ↦ M₁.UpTo M') fun _ M' ↦ M₁.UpTo M'

theorem Passes.bind {q : Eval α} {g : α → Eval β} (hq : q.Passes M M₁)
    (hg : ∀ a M', (g a).Passes M' M') : (q >>= g).Passes M M₁ := by
  refine Ends.bind (hq.mono (fun a M₂ h₂ ↦ (hg a M₂).mono ?_ ?_) fun _ _ h ↦ h)
  · exact fun _ _ h ↦ h₂.trans h
  · exact fun _ _ h ↦ h₂.trans h

/-- Where the first computation is not cut short, the second one does the same. Where it is, the
second one ends later. -/
structure Truncates (stop : Interrupt) (p q : Eval α) : Prop where
  passes : ∀ M, q.Passes M M
  agrees : ∀ M, q M = p M ∨ ∃ M₁, p M = .error stop M₁ ∧ q.Passes M M₁

/-- The number of statements ends up at the limit at most, or where it has been before. The first
statement beyond that ends the computation. -/
def Budgeted (n : Nat) (p : Eval α) : Prop := ∀ M,
  Ends p M (fun _ M' ↦ M.steps ≤ M'.steps ∧ M'.steps ≤ max n M.steps) fun i M' ↦
    (i.isStepLimit = false ∧ M.steps ≤ M'.steps ∧ M'.steps ≤ max n M.steps) ∨
      (i = stepLimit n ∧ M'.steps = max n M.steps + 1)

theorem Quiet.passes {p : Eval α} (hp : p.Quiet) (M : Machine) : p.Passes M M :=
  (hp M).mono (fun _ _ h ↦ h.upTo) fun _ _ h ↦ h.1.upTo

theorem Quiet.truncates {p : Eval α} (hp : p.Quiet) : Truncates stop p p :=
  ⟨hp.passes, fun _ ↦ .inl rfl⟩

theorem Quiet.budgeted {p : Eval α} (hp : p.Quiet) : p.Budgeted n := fun M ↦ by
  have hsame : ∀ {M'}, M.SameStep M' → M.steps ≤ M'.steps ∧ M'.steps ≤ max n M.steps := by
    intro M' h
    rw [h.steps]
    exact ⟨Nat.le_refl _, Nat.le_max_right _ _⟩
  exact (hp M).mono (fun _ _ h ↦ hsame h) fun _ _ h ↦ .inl ⟨h.2, hsame h.1⟩

/-- The environment that is current has no part in either. -/
theorem passes_within {q : Eval α} (env : Environment) (h : q.Passes { M with current := env } M₁) :
    (Eval.within env q).Passes M M₁ :=
  ends_within (h.mono (fun _ _ h ↦ ⟨h.steps, h.printed⟩) fun _ _ h ↦ ⟨h.steps, h.printed⟩)

theorem passes_catchReturn {q : Eval Unit} (h : q.Passes M M₁) :
    (Eval.catchReturn q).Passes M M₁ :=
  ends_catchReturn (h.mono (fun _ _ h ↦ h) fun _ _ h ↦ ⟨fun _ _ ↦ h, fun _ ↦ h⟩)

theorem congruent_passes : Congruent fun _ p _ ↦ ∀ M, p.Passes M M where
  pure a := (Quiet.pure a).passes
  bind hp hf M := (hp M).bind hf
  within env hp _ := (passes_within env (hp _)).mono (fun _ _ h ↦ ⟨h.steps, h.printed⟩)
    fun _ _ h ↦ ⟨h.steps, h.printed⟩
  catchReturn hp M := passes_catchReturn (hp M)

theorem congruent_truncates (hstop : ∀ v, stop ≠ .returning v) :
    Congruent fun _ p q ↦ Truncates stop p q where
  pure a := (Quiet.pure a).truncates
  bind := by
    intro α β p q f g hpq hfg
    refine ⟨fun M ↦ (hpq.passes M).bind fun a ↦ (hfg a).passes, fun M ↦ ?_⟩
    obtain heq | ⟨M₁, hp, hq⟩ := hpq.agrees M
    -- Where the first parts agree, it is up to the second ones, from the same machine.
    · cases hp : p M with
      | ok a M₁ =>
        rw [bind_of_ok hp, bind_of_ok (heq.trans hp)]
        refine ((hfg a).agrees M₁).imp_right fun ⟨M₂, hf, hg⟩ ↦ ⟨M₂, hf, ?_⟩
        rw [Passes, Ends, bind_of_ok (heq.trans hp)]
        exact hg
      | error i M₁ => exact .inl (by rw [bind_of_error hp, bind_of_error (heq.trans hp)])
    -- Where the first part is cut short, whatever the other one goes on with ends later still.
    · exact .inr ⟨M₁, bind_of_error hp, hq.bind fun a ↦ (hfg a).passes⟩
  within := by
    intro α p q env hpq
    refine ⟨fun M ↦ passes_within env ((hpq.passes _).mono ?_ ?_), fun M ↦ ?_⟩
    · exact fun _ _ h ↦ ⟨h.steps, h.printed⟩
    · exact fun _ _ h ↦ ⟨h.steps, h.printed⟩
    · obtain heq | ⟨M₁, hp, hq⟩ := hpq.agrees { M with current := env }
      · exact .inl (by rw [Eval.within, Eval.within, heq])
      · refine .inr ⟨{ M₁ with current := M.current }, by rw [Eval.within, hp], ?_⟩
        exact (passes_within env hq).mono (fun _ _ h ↦ ⟨h.steps, h.printed⟩)
          fun _ _ h ↦ ⟨h.steps, h.printed⟩
  catchReturn := by
    intro p q hpq
    refine ⟨fun M ↦ passes_catchReturn (hpq.passes M), fun M ↦ ?_⟩
    obtain heq | ⟨M₁, hp, hq⟩ := hpq.agrees M
    · exact .inl (by rw [Eval.catchReturn, Eval.catchReturn, heq])
    · refine .inr ⟨M₁, ?_, passes_catchReturn hq⟩
      rw [Eval.catchReturn, hp]
      -- What cuts a run short is no return, so no call holds it up.
      cases stop
      case returning v => exact absurd rfl (hstop v)
      all_goals rfl

theorem congruent_budgeted : Congruent fun _ p _ ↦ Budgeted n p where
  pure a := (Quiet.pure a).budgeted
  bind := by
    intro α β p q f g hp hf M
    refine Ends.bind ((hp M).mono (fun a M₁ h₁ ↦ (hf a M₁).mono ?_ ?_) fun _ _ h ↦ h)
    · exact fun _ M₂ h₂ ↦ ⟨Nat.le_trans h₁.1 h₂.1, by omega⟩
    · rintro i M₂ (⟨hi, h₂⟩ | ⟨hi, h₂⟩)
      · exact .inl ⟨hi, Nat.le_trans h₁.1 h₂.1, by omega⟩
      · exact .inr ⟨hi, by omega⟩
  within env hp M := ends_within (hp { M with current := env })
  catchReturn hp M := by
    refine ends_catchReturn ((hp M).mono (fun _ _ h ↦ h) fun i M' h ↦ ⟨?_, fun _ ↦ h⟩)
    rintro v rfl
    exact h.elim And.right fun h ↦ absurd h.1.symm (stepLimit_ne_returning n v)

/-! ## Counting -/

variable {host : Host} {limit : Option Int}

theorem step_passes (host : Host) (M : Machine) :
    (step host).Passes M { M with steps := M.steps + 1 } :=
  ends_step ⟨Nat.le_refl _, List.suffix_rfl⟩ fun _ ↦ ⟨Nat.le_refl _, List.suffix_rfl⟩

theorem passes_step (host : Host) (M : Machine) : (step host).Passes M M :=
  (step_passes host M).mono (fun _ _ h ↦ ⟨Nat.le_of_succ_le h.steps, h.printed⟩)
    fun _ _ h ↦ ⟨Nat.le_of_succ_le h.steps, h.printed⟩

/-- Under a lower limit, a statement is refused earlier. -/
theorem truncates_step (hlimit : ∀ k ∈ limit, (n : Int) ≤ k) :
    Truncates (stepLimit n) (step { host with maxSteps := some (n : Int) })
      (step { host with maxSteps := limit }) := by
  refine ⟨passes_step _, fun M ↦ ?_⟩
  rw [step_run { host with maxSteps := some (n : Int) }]
  by_cases hn : (n : Int) < ((M.steps + 1 : Nat) : Int)
  · exact .inr ⟨_, if_pos hn, step_passes _ M⟩
  · refine .inl ?_
    dsimp only
    rw [step_run, if_neg hn]
    cases limit with
    | none => rfl
    | some k => exact if_neg fun h ↦ hn (Int.lt_of_le_of_lt (hlimit k rfl) h)

theorem budgeted_step (hn : host.maxSteps = some (n : Int)) : Budgeted n (step host) := by
  intro M
  rw [Ends, step_run, hn]
  dsimp only
  by_cases hlimit : (n : Int) < ((M.steps + 1 : Nat) : Int)
  · rw [if_pos hlimit]
    exact .inr ⟨rfl, by dsimp only; omega⟩
  · rw [if_neg hlimit]
    exact ⟨Nat.le_succ _, by dsimp only; omega⟩

end Eval

/-! ## Programs -/

open Eval (Truncates Budgeted)

variable {α : Type} {n : Nat} {host : Host} {limit : Option Int}

/-- Under hosts that differ in the limit on statements only, a program is run alike if its
statements are counted alike. -/
theorem run_congruent {K : (α : Type) → Eval α → Eval α → Prop} (hK : Congruent K)
    (hquiet : ∀ {α : Type} {p : Eval α}, p.Quiet → K α p p) (host : Host) (limit : Option Int)
    (hstep : K Unit (Eval.step host) (Eval.step { host with maxSteps := limit }))
    (program : List Stmt) :
    K Unit (Eval.run host program) (Eval.run { host with maxSteps := limit } program) := by
  rw [← run_programScript, ← run_programScript]
  exact Script.run_congruent hK (Task.run_congruent hK hquiet hstep host.nesting)
    (.forM (fun _ ↦ .answer _) program)

/-- A lower limit only cuts a program short. -/
theorem truncates_run (hlimit : ∀ k ∈ limit, (n : Int) ≤ k) (program : List Stmt) :
    Truncates (stepLimit n) (Eval.run { host with maxSteps := some (n : Int) } program)
      (Eval.run { host with maxSteps := limit } program) :=
  run_congruent (Eval.congruent_truncates (stepLimit_ne_returning n)) Eval.Quiet.truncates
    { host with maxSteps := some (n : Int) } limit (Eval.truncates_step hlimit) program

theorem budgeted_task (hn : host.maxSteps = some (n : Int)) (nesting : Nat) (t : Task α) :
    Budgeted n (t.run host nesting) :=
  @Task.run_congruent host _ host.maxSteps Eval.congruent_budgeted Eval.Quiet.budgeted
    (Eval.budgeted_step hn) nesting _ t

theorem budgeted_run (hn : host.maxSteps = some (n : Int)) (program : List Stmt) :
    Budgeted n (Eval.run host program) :=
  run_congruent Eval.congruent_budgeted Eval.Quiet.budgeted host host.maxSteps
    (Eval.budgeted_step hn) program

/-- Doing a task takes nothing back. -/
theorem passes_task (host : Host) (nesting : Nat) (t : Task α) (M : Machine) :
    (t.run host nesting).Passes M M :=
  @Task.run_congruent host _ host.maxSteps Eval.congruent_passes Eval.Quiet.passes
    (Eval.passes_step host) nesting _ t M

/-- Running a program takes nothing back. -/
theorem passes_run (host : Host) (program : List Stmt) (M : Machine) :
    (Eval.run host program).Passes M M :=
  run_congruent Eval.congruent_passes Eval.Quiet.passes host host.maxSteps (Eval.passes_step host)
    program M

end Lox
