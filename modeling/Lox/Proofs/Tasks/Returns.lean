import Lox.Proofs.Tasks.Chain
import Lox.Proofs.Tasks.Conduct

/-!
# Where returns go

A return statement leaves the tasks around it one after the other. None of those that execute a
statement can hold it up, since their scripts catch nothing, so it gets to the call of the function
and becomes the value of the call.
-/

namespace Lox

namespace Script

variable {α β : Type} {answers : Answers} {M M₁ M₂ : Machine}

/-- A script that catches no returns. -/
def Transparent (s : Script α) : Prop := s.Performs (fun _ _ ↦ True) False

/-- If a task that is asked for ends early, so does a script that catches nothing. -/
theorem Transparent.run_of_asks {s : Script α} {t : Sigma Task} {i : Interrupt} (hs : s.Transparent)
    (hasks : s.Asks answers M t M₁) (ht : answers t.2 M₁ = .error i M₂) :
    ∃ M₃, s.run answers M = .error i M₃ := by
  induction s generalizing M with
  | done a => exact hasks.elim
  | act p next ih =>
    obtain ⟨b, M', hp, hasks⟩ := hasks
    obtain ⟨M₃, hrun⟩ := ih b (hs.2 b) hasks
    exact ⟨M₃, (bind_of_ok hp).trans hrun⟩
  | ask t' next ih =>
    rcases hasks with ⟨rfl, rfl⟩ | ⟨a, M', hp, hasks⟩
    · exact ⟨M₂, bind_of_error ht⟩
    · obtain ⟨M₃, hrun⟩ := ih a (hs a) hasks
      exact ⟨M₃, (bind_of_ok hp).trans hrun⟩
  | within env inner next ihinner ih =>
    rcases hasks with hasks | ⟨b, M', hp, hasks⟩
    · obtain ⟨M₃, hrun⟩ := ihinner hs.1 hasks
      refine ⟨{ M₃ with current := M.current }, bind_of_error ?_⟩
      rw [Eval.within, hrun]
    · obtain ⟨M₃, hrun⟩ := ih b (hs.2 b) hasks
      exact ⟨M₃, (bind_of_ok hp).trans hrun⟩
  | catchReturn inner next => exact hs.1.elim

end Script

/-- The body of a function is the only thing in its call that can return. -/
theorem Task.callFunction_of_asks {host : Host} {answers : Answers} {f : Closure}
    {arguments : List Value} {t : Sigma Task} {v : Value} {M M₁ M₂ : Machine}
    (hasks : ((callFunction f arguments).script host).Asks answers M t M₁)
    (ht : answers t.2 M₁ = .error (.returning v) M₂) :
    ∃ M₃, ((callFunction f arguments).script host).run answers M = .ok v M₃ := by
  obtain ⟨env, M', hframe, hasks⟩ := hasks
  rcases hasks with hbody | ⟨w, M₃, -, hasks⟩
  · obtain ⟨M₃, hrun⟩ := Script.Transparent.run_of_asks
      (Script.Performs.enclose (.answer _)) hbody ht
    refine ⟨M₃, ?_⟩
    rw [script, Script.run_bind, Script.run_perform, bind_of_ok hframe, Script.run_body,
      Eval.catchReturn, hrun]
  · exact hasks.elim

/-- A task that executes a statement catches nothing. -/
theorem Task.script_transparent {α : Type} {t : Task α} {st : Stmt} (host : Host)
    (hst : t.statement? = some st) : (t.script host).Transparent := by
  cases t with
  | execute st =>
    exact Script.Performs.bind (.perform trivial) fun _ ↦
      statement_performs host (fun _ ↦ trivial) trivial st
  | block body => exact block_performs host (fun _ ↦ trivial) body
  | forLoop initializer condition increment body =>
    exact forLoop_performs host (fun _ ↦ trivial) trivial initializer condition increment body
  | _ => cases hst

/-- If the innermost of the tasks inside of a call returns, the value it returns is the value of the
call. -/
theorem Running.run_of_returning {host : Host} {α : Type} {s : Script α} {M M₀ : Machine}
    {f : Closure} {arguments : List Value} {chain : List Begun}
    (hrunning : Running f arguments M₀ chain) :
    ∀ {nesting : Nat}, Doing host s M nesting chain → ∃ inner outer,
      chain = inner ++ (⟨_, .callFunction f arguments⟩, M₀) :: outer ∧
      (∀ b ∈ inner, ∃ st, b.1.2.statement? = some st ∧ f.declaration.body.Contains st) ∧
      ∀ b ∈ inner.head?, ∀ v M', b.1.2.run host nesting b.2 = .error (.returning v) M' →
        ∃ M'', (Task.callFunction f arguments).run host (nesting + inner.length) M₀
          = .ok v M'' := by
  -- The induction goes from the call inwards, along the tasks that are inside of it.
  induction hrunning with
  | @call outer => exact fun _ ↦ ⟨[], outer, rfl, List.forall_mem_nil _, fun b hb ↦ by cases hb⟩
  | @inner t st M₁ outer hst hcontains houter ih =>
    intro nesting hdoing
    cases hdoing with
    | outermost => cases houter
    | @inner _ b rest _ _ hdoing hasks =>
      obtain ⟨inner, rest', heq, hinner, hreturns⟩ := ih hdoing
      refine ⟨(t, M₁) :: inner, rest', by rw [heq, List.cons_append],
        List.forall_mem_cons.mpr ⟨⟨st, hst, hcontains⟩, hinner⟩, ?_⟩
      rintro _ ⟨⟩ v M' hv
      -- Either the call itself has asked for the task that returns, or another task inside of it
      -- has. That one is left as well, and from there on it is known where the return goes.
      cases inner with
      | nil =>
        cases heq
        obtain ⟨M₃, hrun⟩ := Task.callFunction_of_asks hasks hv
        exact ⟨M₃, by rw [List.length_singleton, Task.run_succ]; exact hrun⟩
      | cons b' inner =>
        cases heq
        obtain ⟨st', hst', -⟩ := hinner b List.mem_cons_self
        obtain ⟨M₃, hrun⟩ := (Task.script_transparent host hst').run_of_asks hasks hv
        rw [← Task.run_succ] at hrun
        obtain ⟨M'', hcall⟩ := hreturns b rfl v M₃ hrun
        refine ⟨M'', ?_⟩
        rw [List.length_cons, ← Nat.succ_add_eq_add_succ]
        exact hcall

end Lox
