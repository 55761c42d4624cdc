import Lox.Proofs.Environments.Tasks
import Lox.Proofs.Lexical.Safety
import Lox.Proofs.Tasks.Limit

/-!
# The discipline of the current environment

Blocks, loops and calls make another environment current, and they are left in many ways. Whatever
the way is, the environment that was current before is current again, and it is the same chain of
frames as before. So between any two commands to a session the globals are current, also after a
command that went astray.
-/

namespace Lox

variable {α β : Type} {host : Host} {links : List Environment} {M : Machine}

/-! ## Tasks -/

namespace Eval

/-- However a computation ends, the environment that was current is current again. -/
def Restores (p : Eval α) : Prop := ∀ M, Ends p M (fun _ M' ↦ M'.current = M.current)
  fun _ M' ↦ M'.current = M.current

theorem Quiet.restores {p : Eval α} (h : p.Quiet) : p.Restores :=
  fun M ↦ (h M).mono (fun _ _ h ↦ h.current) fun _ _ h ↦ h.1.current

theorem Restores.bind {p : Eval α} {f : α → Eval β} (hp : p.Restores) (hf : ∀ a, (f a).Restores) :
    Restores (p >>= f) := by
  refine fun M ↦ .bind ((hp M).mono (fun a M₁ h₁ ↦ (hf a M₁).mono ?_ ?_) fun _ _ h ↦ h)
  · exact fun _ _ h ↦ h.trans h₁
  · exact fun _ _ h ↦ h.trans h₁

/-- A part that is done in another environment restores the one before, whatever it does itself. -/
theorem restores_within (env : Environment) (p : Eval α) : Restores (within env p) :=
  fun _ ↦ ends_within (.intro (fun _ _ _ ↦ rfl) fun _ _ _ ↦ rfl)

theorem congruent_restores : Congruent fun _ p _ ↦ p.Restores where
  pure a := (Quiet.pure a).restores
  bind hp hf := hp.bind hf
  within env _ := restores_within env _
  catchReturn hp M :=
    ends_catchReturn ((hp M).mono (fun _ _ h ↦ h) fun _ _ h ↦ ⟨fun _ _ ↦ h, fun _ ↦ h⟩)

theorem restores_step (host : Host) : Restores (step host) := fun _ ↦ ends_step rfl fun _ ↦ rfl

end Eval

theorem restores_task (host : Host) (nesting : Nat) (t : Task α) : (t.run host nesting).Restores :=
  @Task.run_congruent host _ host.maxSteps Eval.congruent_restores Eval.Quiet.restores
    (Eval.restores_step host) nesting α t

/-- However a computation ends, the environment that was current is current again, and the table of
links has only grown: around every frame that existed is the environment that was around it.
Whatever the computation ends with goes along the table. -/
def Eval.Disciplined (links : List Environment) (p : Eval α) (M : Machine)
    (yields : α → List Environment) : Prop :=
  Ends p M
    (fun a M' ↦ M'.current = M.current ∧ M'.Extends links fun links' ↦ AllAlong links' (yields a))
    fun i M' ↦ M'.current = M.current ∧ M'.Extends links fun links' ↦ AllAlong links' i.environments

theorem Eval.Keeps.disciplined {p : Eval α} {yields : α → List Environment}
    (h : p.Keeps links M fun links a ↦ AllAlong links (yields a)) (hp : p.Restores) :
    p.Disciplined links M yields :=
  .intro (fun _ _ hrun ↦ ⟨(hp M).of_ok hrun, h.of_ok hrun⟩)
    fun _ _ hrun ↦ ⟨(hp M).of_error hrun, h.of_error hrun⟩

theorem disciplined_task (hM : M.Linked links) (nesting : Nat) (t : Task α)
    (ht : AllAlong links t.environments) :
    (t.run host nesting).Disciplined links M t.yields :=
  ((Task.kept_run host nesting).keeps t hM ht).disciplined (restores_task host nesting t)

/-- Statements may be executed in any environment that the machine knows. -/
theorem disciplined_within (hM : M.Linked links) (nesting : Nat) {env : Environment}
    (henv : Along links env) (items : List Stmt) :
    (Eval.within env (items.forM (Eval.execute host nesting))).Disciplined links M fun _ ↦ [] := by
  have hscript : Script.Keeps (Task.run host nesting) links
      (.enclose env (items.forM fun st ↦ .answer (.execute st))) M fun _ _ ↦ True :=
    .enclose hM henv fun hM ↦ .forM (fun st _ _ hM ↦ (Task.kept_run host nesting).execute hM st) hM
  have hkeeps := hscript.ends
  simp only [Script.run_enclose, Script.run_forM, Script.run_answer, Task.run] at hkeeps
  exact (hkeeps.mono List.prefix_rfl fun _ ↦ .nil).disciplined (Eval.restores_within env _)

theorem disciplined_run (hM : M.Linked links) (program : List Stmt) :
    (Eval.run host program).Disciplined links M fun _ ↦ [] := by
  have hscript : Script.Keeps (Task.run host host.nesting) links (programScript program) M
      fun _ _ ↦ True :=
    .forM (fun st _ _ hM ↦ (Task.kept_run host host.nesting).execute hM st) hM
  have hkeeps := hscript.ends
  rw [run_programScript] at hkeeps
  exact (hkeeps.mono List.prefix_rfl fun _ ↦ .nil).disciplined
    (run_congruent Eval.congruent_restores Eval.Quiet.restores host host.maxSteps
      (Eval.restores_step host) program)

theorem disciplined_textOf (hM : M.Linked links) (e : Expr) :
    (Session.textOf host e).Disciplined links M fun _ ↦ [] := by
  have hevaluate := (Task.kept_run host host.nesting).keeps (.evaluate e) hM .nil
  refine (Eval.Keeps.bind hevaluate fun _ _ _ _ hM _ ↦ .pure hM .nil).disciplined ?_
  exact (restores_task host host.nesting (.evaluate e)).bind fun _ ↦ (Eval.Quiet.pure _).restores

/-! ## Commands -/

namespace Session

variable {s : Session}

theorem disciplined_perform {p : Eval α} {yields : α → List Environment}
    (h : p.Disciplined links s.machine yields) :
    (s.perform p).2.machine.current = s.machine.current ∧
      (s.perform p).2.machine.Extends links fun _ ↦ True := by
  have hprinted : ∀ {M : Machine} {P : List Environment → Prop}, M.Extends links P →
      ({ M with printed := [] } : Machine).Extends links fun _ ↦ True := by
    rintro M P ⟨links', hlinks, hM, -⟩
    exact ⟨links', hlinks, ⟨hM.size, hM.current, hM.frames, hM.objects⟩, trivial⟩
  rw [perform]
  cases hrun : p s.machine with
  | ok a m => exact (h.of_ok hrun).imp_right hprinted
  | error i m => exact (h.of_error hrun).imp_right hprinted

theorem disciplined_serve (hM : s.machine.Linked links) (r : Command) :
    (s.serve r).machine.current = s.machine.current ∧
      (s.serve r).machine.Extends links fun _ ↦ True := by
  have hidle : s.machine.current = s.machine.current ∧ s.machine.Extends links fun _ ↦ True :=
    ⟨rfl, hM.extends trivial⟩
  cases r with
  | run source =>
    cases hclean : (Lox.compile s.host.nesting source).hasErrors with
    | true =>
      rw [serve, run_of_errors hclean]
      exact hidle
    | false =>
      rw [serve, run_of_clean hclean]
      exact disciplined_perform (s := { s with outputs := [] :: s.outputs }) (disciplined_run hM _)
  | evaluate source =>
    cases hresult : (compileExpression s.host.nesting source).result with
    | none =>
      rw [serve, evaluate_of_none hresult]
      exact hidle
    | some e =>
      cases hclean : (compileExpression s.host.nesting source).hasErrors with
      | true =>
        rw [serve, evaluate_of_errors hclean]
        exact hidle
      | false =>
        rw [serve, evaluate_of_clean hclean hresult]
        exact disciplined_perform (disciplined_textOf hM e)
  | compile source => exact hidle

theorem linked_serveAll (hM : s.machine.Linked links) (commands : List Command) :
    (s.serveAll commands).machine.current = s.machine.current ∧
      ∃ links', links <+: links' ∧ (s.serveAll commands).machine.Linked links' := by
  induction commands generalizing s links with
  | nil => exact ⟨rfl, links, List.prefix_rfl, hM⟩
  | cons r commands ih =>
    obtain ⟨hcurrent, links₁, hlinks, hM₁, -⟩ := disciplined_serve hM r
    obtain ⟨hcurrent', links₂, hlinks', hM₂⟩ := ih hM₁
    exact ⟨hcurrent'.trans hcurrent, links₂, hlinks.trans hlinks', hM₂⟩

/-- Whatever is done for a command is begun along an extension of the table. -/
theorem Doing.extends {nesting : Nat} {b : Begun} {outer : List Begun} {r : Command}
    (hM : s.machine.Linked links) (h : s.Doing nesting (b :: outer) r) :
    b.2.Extends links fun links' ↦ AllAlong links' b.1.2.environments := by
  have hkept := Task.kept_run s.host s.host.nesting
  have hbegun : ∃ b' outer', b :: outer = b' :: outer' ∧
      b'.2.Extends links fun links' ↦ AllAlong links' b'.1.2.environments := by
    cases r with
    | run source =>
      exact extends_of_doing (.forM (fun st _ _ hM ↦ hkept.execute hM st) hM) h.2
    | evaluate source =>
      obtain ⟨-, e, -, hdoing⟩ := h
      exact extends_of_doing (hkept.evaluate hM e) hdoing
    | compile source => exact h.elim
  obtain ⟨_, _, heq, hextends⟩ := hbegun
  obtain ⟨rfl, rfl⟩ := List.cons.inj heq
  exact hextends

end Session

/-- The environment that is current follows a stack discipline, and no frame is ever linked anew.
From every machine that goes along a table of links, whatever is done in any environment ends,
however it ends, in the environment it began in, with the same links around the frames there were.
In a session every machine goes along such a table, whenever a task is begun and between any two
commands, and the globals are current whenever a command has been served. -/
theorem environment_restored (host : Host) (earlier : List Command) (r : Command) :
    (∀ (links : List Environment) (M : Machine), M.Linked links → ∀ nesting : Nat,
      (∀ {α : Type} (t : Task α), AllAlong links t.environments →
        (t.run host nesting).Disciplined links M t.yields) ∧
      ∀ env, Along links env → ∀ items : List Stmt,
        (Eval.within env (items.forM (Eval.execute host nesting))).Disciplined links M
          fun _ ↦ []) ∧
    ∃ links, ((Session.start host).serveAll earlier).machine.Linked links ∧
      (∀ nesting b outer, ((Session.start host).serveAll earlier).Doing nesting (b :: outer) r →
        b.2.Extends links fun links' ↦ AllAlong links' b.1.2.environments) ∧
      ((Session.start host).serveAll earlier).machine.current = Machine.globals ∧
      (((Session.start host).serveAll earlier).serve r).machine.current = Machine.globals ∧
      (((Session.start host).serveAll earlier).serve r).machine.Extends links fun _ ↦ True := by
  refine ⟨fun links M hM nesting ↦ ⟨fun t ht ↦ disciplined_task hM nesting t ht,
    fun env henv items ↦ disciplined_within hM nesting henv items⟩, ?_⟩
  have hstart : (Session.start host).machine.Linked [[], [Machine.builtinFrame]] :=
    Machine.linked_start
  obtain ⟨hglobals, links, -, hM⟩ := Session.linked_serveAll hstart earlier
  obtain ⟨hcurrent, hextends⟩ := Session.disciplined_serve hM r
  exact ⟨links, hM, fun nesting b outer hdoing ↦ hdoing.extends hM, hglobals,
    hcurrent.trans hglobals, hextends⟩

end Lox
