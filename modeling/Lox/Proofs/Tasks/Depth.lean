import Lox.Proofs.Tasks.Limit

/-!
# The bound on nested calls

Running out of nested calls ends a task in one way only, and nothing in the language catches that.
So with more of them a task is done in the same way, except where it ended for want of them: there
it goes on, and takes back nothing of what it has printed.

That nothing catches it is true of everything that ends a task but a return. Whatever the innermost
task of a chain ends with, the task that asked for it ends with as well, and so on out to the
program.
-/

namespace Lox

/-- What a task ends with that runs out of nested calls. -/
def stackOverflow : Interrupt := .issue (.anywhere .stackOverflow)

theorem stackOverflow_ne_returning (v : Value) : stackOverflow ≠ .returning v := by
  rw [stackOverflow]
  exact nofun

open Eval (Truncates)

/-- With more nested calls, a task goes on where it overflowed, and does the same as before where
it did not. -/
theorem truncates_deeper (host : Host) : ∀ {nesting deeper : Nat}, nesting ≤ deeper →
    ∀ {α : Type} (t : Task α), Truncates stackOverflow (t.run host nesting) (t.run host deeper)
  | 0, deeper, _, α, t => by
    have hpasses : ∀ M, (t.run host deeper).Passes M M := passes_task host deeper t
    refine ⟨hpasses, fun M ↦ .inr ⟨M, ?_, hpasses M⟩⟩
    rw [Task.run_zero]
    rfl
  | nesting + 1, deeper + 1, hle, α, t =>
    have hstep : Truncates stackOverflow (Eval.step host) (Eval.step host) :=
      ⟨Eval.passes_step host, fun _ ↦ .inl rfl⟩
    @Task.run_succ_congruent host _ host.maxSteps
      (Eval.congruent_truncates stackOverflow_ne_returning) Eval.Quiet.truncates hstep
      nesting deeper (truncates_deeper host (Nat.le_of_succ_le_succ hle)) _ t

/-! ## Programs under two bounds

The host says how many nested calls a program may make. What a task does with the calls that are
left for it does not depend on that. -/

variable {α : Type} {host : Host} {nesting deeper : Nat}

theorem Task.script_withNesting (host : Host) (nesting : Nat) (t : Task α) :
    t.script { host with nesting } = t.script host := by
  cases t
  case execute st => cases st <;> rfl
  all_goals rfl

theorem Task.run_withNesting (host : Host) (nesting : Nat) : ∀ (left : Nat) {α : Type} (t : Task α),
    t.run { host with nesting } left = t.run host left
  | 0, _, t => by rw [Task.run_zero, Task.run_zero]
  | left + 1, _, t => by
    have hanswers : @Task.run { host with nesting } left = @Task.run host left :=
      funext fun α ↦ funext fun t ↦ Task.run_withNesting host nesting left t
    rw [Task.run_succ, Task.run_succ, Task.script_withNesting, hanswers]

theorem truncates_nesting (host : Host) (hle : nesting ≤ deeper) (t : Task α) :
    Truncates stackOverflow (t.run { host with nesting } nesting)
      (t.run { host with nesting := deeper } deeper) := by
  rw [Task.run_withNesting host nesting, Task.run_withNesting host deeper]
  exact truncates_deeper host hle t

theorem truncates_program (host : Host) (hle : nesting ≤ deeper) (program : List Stmt) :
    Truncates stackOverflow (Eval.run { host with nesting } program)
      (Eval.run { host with nesting := deeper } program) := by
  rw [← run_programScript, ← run_programScript]
  exact Script.run_congruent (Eval.congruent_truncates stackOverflow_ne_returning)
    (fun t ↦ truncates_nesting host hle t) (.forM (fun _ ↦ .answer _) program)

/-! ## Nothing catches it -/

namespace Script

variable {answers : Answers} {t : Sigma Task} {M M' M₁ : Machine} {i : Interrupt}

/-- What a task fails with that a script asks for, the script fails with as well, unless it is a
return. -/
theorem run_of_asks {s : Script α} (h : s.Asks answers M t M')
    (hfails : answers t.2 M' = .error i M₁) (hi : ∀ v, i ≠ .returning v) :
    ∃ M₂, s.run answers M = .error i M₂ := by
  induction s generalizing M with
  | done a => exact h.elim
  | act p next ih =>
    obtain ⟨b, M₂, hp, hnext⟩ := h
    obtain ⟨M₃, hrun⟩ := ih b hnext
    exact ⟨M₃, (bind_of_ok hp).trans hrun⟩
  | ask u next ih =>
    rcases h with ⟨rfl, rfl⟩ | ⟨a, M₂, hu, hnext⟩
    · exact ⟨M₁, bind_of_error hfails⟩
    · obtain ⟨M₃, hrun⟩ := ih a hnext
      exact ⟨M₃, (bind_of_ok hu).trans hrun⟩
  | within env inner next ihinner ih =>
    rcases h with hinner | ⟨b, M₂, hwithin, hnext⟩
    · obtain ⟨M₂, hrun⟩ := ihinner hinner
      exact ⟨{ M₂ with current := M.current }, bind_of_error (by rw [Eval.within, hrun])⟩
    · obtain ⟨M₃, hrun⟩ := ih b hnext
      exact ⟨M₃, (bind_of_ok hwithin).trans hrun⟩
  | catchReturn inner next ihinner ih =>
    rcases h with hinner | ⟨v, M₂, hbody, hnext⟩
    · obtain ⟨M₂, hrun⟩ := ihinner hinner
      refine ⟨M₂, bind_of_error ?_⟩
      rw [Eval.catchReturn, hrun]
      cases i
      case returning v => exact absurd rfl (hi v)
      all_goals rfl
    · obtain ⟨M₃, hrun⟩ := ih v hnext
      exact ⟨M₃, (bind_of_ok hbody).trans hrun⟩

end Script

variable {s : Script α} {M : Machine} {b : Begun} {outer : List Begun}

theorem Doing.exists_cons {chain : List Begun} (h : Doing host s M nesting chain) :
    ∃ b outer, chain = b :: outer := by
  cases h <;> exact ⟨_, _, rfl⟩

/-- What the innermost task of a chain fails with, the program fails with. -/
theorem Doing.run_of_innermost (h : Doing host s M nesting (b :: outer)) {i : Interrupt}
    {M₁ : Machine} (hfails : b.1.2.run host nesting b.2 = .error i M₁)
    (hi : ∀ v, i ≠ .returning v) :
    ∃ M₂, s.run (Task.run host host.nesting) M = .error i M₂ := by
  generalize hchain : b :: outer = chain at h
  induction h generalizing b outer M₁ with
  | outermost hasks =>
    obtain ⟨rfl, -⟩ := List.cons.inj hchain
    exact Script.run_of_asks hasks hfails hi
  | inner _ hasks ih =>
    obtain ⟨rfl, -⟩ := List.cons.inj hchain
    obtain ⟨M₂, houter⟩ := Script.run_of_asks hasks hfails hi
    exact ih (by rw [Task.run_succ]; exact houter) rfl

/-- Where a task is begun without a nested call left for it, the program overflows. -/
theorem Doing.overflow {chain : List Begun} (h : Doing host s M 0 chain) :
    ∃ M₂, s.run (Task.run host host.nesting) M = .error stackOverflow M₂ := by
  obtain ⟨b, outer, rfl⟩ := h.exists_cons
  have hfails : b.1.2.run host 0 b.2 = .error stackOverflow b.2 := by
    rw [Task.run_zero]
    rfl
  exact h.run_of_innermost hfails stackOverflow_ne_returning

/-! ## Nothing else is taken for it -/

/-- For want of nested calls a task ends in the one way only. -/
def Eval.Overflows (p : Eval α) : Prop := ∀ M, Ends p M (fun _ _ ↦ True)
  fun i _ ↦ i.isShortage = true → i = stackOverflow ∨ i = .exhausted

theorem Eval.congruent_overflows : Congruent fun _ p _ ↦ Eval.Overflows p where
  pure _ _ := trivial
  bind hp hf M := .bind ((hp M).mono (fun a M₁ _ ↦ hf a M₁) fun _ _ h ↦ h)
  within env hp M := ends_within (hp { M with current := env })
  catchReturn hp M :=
    ends_catchReturn ((hp M).mono (fun _ _ h ↦ h) fun _ _ h ↦ ⟨fun _ _ ↦ trivial, fun _ ↦ h⟩)

theorem Eval.Plain.overflows {p : Eval α} (h : p.Plain) : p.Overflows := fun M ↦
  (h M).mono (fun _ _ _ ↦ trivial) fun _ _ h hshortage ↦ by
    have hnone := (Bool.or_eq_false_iff.mp h.2).2
    rw [hshortage] at hnone
    cases hnone

theorem Task.overflows (host : Host) : ∀ (nesting : Nat) {α : Type} (t : Task α),
    (t.run host nesting).Overflows
  | 0, _, t => by
    rw [Task.run_zero]
    exact fun M _ ↦ .inl rfl
  | nesting + 1, α, t => by
    have hrest : ((t.rest host).run (Task.run host nesting)).Overflows :=
      @Script.run_congruent _ _ Eval.congruent_overflows (Task.run host nesting)
        (Task.run host nesting) (fun t ↦ Task.overflows host nesting t) _
        (Task.rest_performs host (fun h ↦ h.overflows) (fun _ _ ↦ .inr rfl) t)
    rw [Task.run_succ]
    cases t with
    | execute st =>
      rw [Task.script, Script.run_bind, Script.run_perform]
      refine Eval.congruent_overflows.bind (q := Eval.step host) ?_ (g := fun _ ↦ Pure.pure ())
        fun _ ↦ hrest
      exact fun M ↦ Eval.ends_step trivial fun _ h ↦ by cases h
    | _ => exact hrest

end Lox
