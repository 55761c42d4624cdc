import Lox.Proofs.Lexical.Safety
import Lox.Proofs.Methods.Tasks

/-!
# Moments of a session

A session goes through many moments, at each of which some task is begun. They are the history of
the session, and at all of them the machine is at a place that fits. All of them precede the end of
the session. So a frame binds `this` and `super` alike at any two moments at which it exists, no
matter which of them comes first.
-/

namespace Lox

/-- The function in whose body a chain of tasks is: that of the innermost call. -/
def running? : List Begun → Option Closure
  | [] => none
  | b :: outer => b.1.2.function?.or (running? outer)

/-- Whatever is being done was begun at a place that fits, and comes to its end before the script
that is run, if the script asks for nothing else. -/
theorem suited_of_doing {H : History} {host : Host} (hclosed : H.Closed host) {α : Type}
    {s : Script α} {M : Machine} {post : α → Store Value → Prop} {nesting : Nat}
    {chain : List Begun} (hs : s.Upholds H host host.nesting none M post)
    (hH : ∀ t M', s.Asks (Task.run host host.nesting) M t M' → H host.nesting none t M')
    (h : Doing host s M nesting chain) :
    ∃ t M' outer, chain = (t, M') :: outer ∧ H nesting (running? outer) t M' ∧
      Task.Suited H (running? outer) t M' ∧ ((t.2.run host nesting).last M').frames.Precedes
        ((s.run (Task.run host host.nesting)).last M).frames := by
  induction h with
  | outermost hasks => exact ⟨_, _, [], rfl, hH _ _ hasks, (hs hH).1 _ _ hasks⟩
  | @inner nesting b _ _ _ _ hasks ih =>
    obtain ⟨t, M₁, outer, heq, hb, hsuited, hlast⟩ := ih
    cases heq
    have hinner := fun t' M' ↦ hclosed nesting _ t M₁ t' M' hb
    obtain ⟨ht, hend⟩ := ((Task.upheld_run hclosed nesting).script hb hsuited hinner).1 _ _ hasks
    rw [← Task.run_succ] at hend
    exact ⟨_, _, _, rfl, hinner _ _ hasks, ht, hend.trans hlast⟩

namespace Session

variable {s : Session} {H : History} {α β : Type} {r : Command} {commands : List Command}
  {nesting : Nat} {t : Sigma Task} {M : Machine} {chain outer : List Begun}

/-! ## Moments -/

/-- While a session serves a row of commands, a chain of tasks is being done. -/
def Moment (s : Session) (commands : List Command) (nesting : Nat) (chain : List Begun) : Prop :=
  ∃ earlier r later, commands = earlier ++ r :: later ∧ (s.serveAll earlier).Doing nesting chain r

/-- The tasks that are begun while a session serves a row of commands. -/
def tasks (s : Session) (commands : List Command) : History := fun nesting running t M ↦
  ∃ outer, s.Moment commands nesting ((t, M) :: outer) ∧ running? outer = running

theorem Doing.inner {b : Begun} (h : s.Doing (nesting + 1) (b :: outer) r)
    (hasks : (b.1.2.script s.host).Asks (Task.run s.host nesting) b.2 t M) :
    s.Doing nesting ((t, M) :: b :: outer) r := by
  cases r with
  | run source => exact ⟨h.1, .inner h.2 hasks⟩
  | evaluate source =>
    obtain ⟨hclean, e, hresult, h⟩ := h
    exact ⟨hclean, e, hresult, .inner h hasks⟩
  | compile source => exact h.elim

theorem closed_tasks (s : Session) (commands : List Command) :
    (s.tasks commands).Closed s.host := by
  rintro nesting running t M t' M' ⟨outer, ⟨earlier, r, later, rfl, h⟩, rfl⟩ hasks
  rw [← host_serveAll s earlier] at hasks
  exact ⟨(t, M) :: outer, ⟨earlier, r, later, rfl, h.inner hasks⟩, rfl⟩

theorem serveAll_append (s : Session) (commands commands' : List Command) :
    s.serveAll (commands ++ commands') = (s.serveAll commands).serveAll commands' :=
  List.foldl_append

/-- The moments of a part of a row of commands are moments of the whole row. -/
theorem Moment.widen (before : List Command)
    (h : (s.serveAll before).Moment commands nesting chain) (behind : List Command) :
    s.Moment (before ++ commands ++ behind) nesting chain := by
  obtain ⟨earlier, r, later, rfl, h⟩ := h
  refine ⟨before ++ earlier, r, later ++ behind, by simp, ?_⟩
  rw [serveAll_append]
  exact h

/-! ## One command -/

theorem machine_perform (s : Session) (p : Eval α) :
    (s.perform p).2.machine = { p.last s.machine with printed := [] } := by
  rw [perform, Eval.last]
  cases p s.machine <;> rfl

/-- What is known of a command when it has been served: its moments were at places that fit, and
precede its end. -/
structure Covers (H : History) (s : Session) (r : Command) (s' : Session) : Prop where
  leadsTo : s.machine.LeadsTo H s'.machine
  moments : ∀ {nesting t M outer}, s.Doing nesting ((t, M) :: outer) r →
    Task.Suited H (running? outer) t M ∧
      ((t.2.run s.host nesting).last M).frames.Precedes s'.machine.frames

/-- A computation that is performed does what a script does. -/
theorem covers_perform (hclosed : H.Closed s.host) {script : Script β}
    {post : β → Store Value → Prop} {p : Eval α}
    (hscript : script.Upholds H s.host s.host.nesting none s.machine post)
    (hH : ∀ t M, script.Asks (Task.run s.host s.host.nesting) s.machine t M →
      H s.host.nesting none t M)
    (hlast : (script.run (Task.run s.host s.host.nesting)).last s.machine = p.last s.machine) :
    s.machine.LeadsTo H (s.perform p).2.machine ∧
      ∀ {nesting t M outer}, Lox.Doing s.host script s.machine nesting ((t, M) :: outer) →
        Task.Suited H (running? outer) t M ∧
          ((t.2.run s.host nesting).last M).frames.Precedes (s.perform p).2.machine.frames := by
  have hleads := (hscript hH).2.leadsTo_last
  rw [machine_perform, ← hlast]
  refine ⟨⟨⟨hleads.fits.frames, hleads.fits.objects⟩, hleads.current, hleads.frames⟩, fun h ↦ ?_⟩
  obtain ⟨_, _, _, heq, -, hsuited⟩ := suited_of_doing hclosed hscript hH h
  cases heq
  exact hsuited

theorem last_textOf (host : Host) (e : Expr) (M : Machine) :
    (textOf host e).last M
      = ((Script.answer (.evaluate e)).run (Task.run host host.nesting)).last M := by
  rw [Script.run_answer, textOf, Eval.last, Eval.last, Task.run]
  cases hrun : Eval.evaluate host host.nesting e M with
  | ok v M' =>
    rw [bind_of_ok hrun]
    rfl
  | error i M' => rw [bind_of_error hrun]

theorem covers_run (hclosed : H.Closed s.host) (hs : s.machine.At H none []) (source : String)
    (hH : ∀ nesting t M outer, s.Doing nesting ((t, M) :: outer) (.run source) →
      H nesting (running? outer) t M) :
    s.Covers H (.run source) (s.serve (.run source)) := by
  cases hclean : (Lox.compile s.host.nesting source).hasErrors with
  | true =>
    rw [serve, run_of_errors hclean]
    exact ⟨hs.fits.leadsTo, fun h ↦ by rw [h.1] at hclean; cases hclean⟩
  | false =>
    rw [serve, run_of_clean hclean]
    have hscript := (Task.upheld_run hclosed s.host.nesting).row hs
      (rowScoped_of_compile hclean fun _ _ ↦ trivial)
    obtain ⟨hleads, hmoments⟩ := covers_perform (s := { s with outputs := [] :: s.outputs })
      (p := Eval.run s.host (Lox.compile s.host.nesting source).program) hclosed hscript
      (fun t M hasks ↦ hH _ t M [] ⟨hclean, .outermost hasks⟩)
      (congrArg (Eval.last · s.machine) (run_programScript s.host _))
    exact ⟨hleads, fun h ↦ hmoments h.2⟩

theorem covers_evaluate (hclosed : H.Closed s.host) (hs : s.machine.At H none []) (source : String)
    (hH : ∀ nesting t M outer, s.Doing nesting ((t, M) :: outer) (.evaluate source) →
      H nesting (running? outer) t M) :
    s.Covers H (.evaluate source) (s.serve (.evaluate source)) := by
  cases hresult : (compileExpression s.host.nesting source).result with
  | none =>
    rw [serve, evaluate_of_none hresult]
    refine ⟨hs.fits.leadsTo, fun h ↦ ?_⟩
    obtain ⟨-, e, he, -⟩ := h
    rw [hresult] at he
    cases he
  | some e =>
    cases hclean : (compileExpression s.host.nesting source).hasErrors with
    | true =>
      rw [serve, evaluate_of_errors hclean]
      exact ⟨hs.fits.leadsTo, fun h ↦ by rw [h.1] at hclean; cases hclean⟩
    | false =>
      rw [serve, evaluate_of_clean hclean hresult]
      have hscript := (Task.upheld_run hclosed s.host.nesting).value hs
        (scoped_of_compileExpression hclean hresult)
      obtain ⟨hleads, hmoments⟩ := covers_perform hclosed hscript
        (fun t M hasks ↦ hH _ t M [] ⟨hclean, e, hresult, .outermost hasks⟩)
        (last_textOf s.host e s.machine).symm
      refine ⟨hleads, fun h ↦ ?_⟩
      obtain ⟨-, e', he', h⟩ := h
      obtain rfl := Option.some.inj (hresult.symm.trans he')
      exact hmoments h

theorem covers_serve (hclosed : H.Closed s.host) (hs : s.machine.At H none []) (r : Command)
    (hH : ∀ nesting t M outer, s.Doing nesting ((t, M) :: outer) r →
      H nesting (running? outer) t M) :
    s.Covers H r (s.serve r) := by
  cases r with
  | run source => exact covers_run hclosed hs source hH
  | evaluate source => exact covers_evaluate hclosed hs source hH
  | compile source => exact ⟨hs.fits.leadsTo, fun h ↦ h.elim⟩

/-! ## Rows of commands -/

theorem leadsTo_serveAll (hclosed : H.Closed s.host) (hs : s.machine.At H none [])
    (commands : List Command) (hH : ∀ nesting t M outer,
      s.Moment commands nesting ((t, M) :: outer) → H nesting (running? outer) t M) :
    s.machine.LeadsTo H (s.serveAll commands).machine := by
  induction commands generalizing s with
  | nil => exact hs.fits.leadsTo
  | cons r commands ih =>
    have hleads := (covers_serve hclosed hs r fun nesting t M outer h ↦
      hH nesting t M outer ⟨[], r, commands, rfl, h⟩).leadsTo
    refine hleads.trans (ih ?_ (hs.leadsTo hleads) fun nesting t M outer h ↦ ?_)
    · rwa [host_serve]
    · have hmoment : s.Moment ([r] ++ commands ++ []) nesting ((t, M) :: outer) :=
        Moment.widen [r] h []
      rw [List.append_nil] at hmoment
      exact hH nesting t M outer hmoment

/-- Every moment is at a place that fits, and precedes the end. -/
theorem Moment.suited (h : s.Moment commands nesting ((t, M) :: outer))
    (hs : s.machine.At (s.tasks commands) none []) :
    Task.Suited (s.tasks commands) (running? outer) t M ∧
      ((t.2.run s.host nesting).last M).frames.Precedes (s.serveAll commands).machine.frames := by
  have hclosed := closed_tasks s commands
  obtain ⟨earlier, r, later, rfl, h⟩ := h
  have hearlier := hs.leadsTo (leadsTo_serveAll hclosed hs earlier fun nesting t M outer h ↦
    ⟨outer, .widen [] h (r :: later), rfl⟩)
  have hhost := host_serveAll s earlier
  have hserved := covers_serve (by rwa [hhost]) hearlier r fun nesting t M outer h ↦
    ⟨outer, ⟨earlier, r, later, rfl, h⟩, rfl⟩
  obtain ⟨hsuited, hend⟩ := hserved.moments h
  have hlater := leadsTo_serveAll (s := (s.serveAll earlier).serve r) (by rwa [host_serve, hhost])
    (hearlier.leadsTo hserved.leadsTo) later fun nesting t M outer h ↦ by
      rw [show (s.serveAll earlier).serve r = s.serveAll (earlier ++ [r]) from
        (serveAll_append s earlier [r]).symm] at h
      have hmoment := Moment.widen _ h []
      rw [List.append_nil, List.append_assoc, List.singleton_append] at hmoment
      exact ⟨outer, hmoment, rfl⟩
  rw [hhost] at hend
  rw [serveAll_append]
  exact ⟨hsuited, hend.trans hlater.frames⟩

/-- A machine that a session passes through: some task is begun there, or comes to its end. -/
def Passes (s : Session) (commands : List Command) (M : Machine) : Prop :=
  ∃ nesting t M' outer, s.Moment commands nesting ((t, M') :: outer) ∧
    (M = M' ∨ M = (t.2.run s.host nesting).last M')

theorem Moment.passes (h : s.Moment commands nesting ((t, M) :: outer)) : s.Passes commands M :=
  ⟨nesting, t, M, outer, h, .inl rfl⟩

/-- All machines that a session passes through fit, and precede the end. -/
theorem Passes.fits (h : s.Passes commands M) (hs : s.machine.At (s.tasks commands) none []) :
    M.Fits (s.tasks commands) ∧
      M.frames.Precedes (s.serveAll commands).machine.frames := by
  obtain ⟨nesting, t, M', outer, hmoment, hM⟩ := h
  obtain ⟨hsuited, hend⟩ := hmoment.suited hs
  have hupheld := Task.upheld_run (closed_tasks s commands) nesting
  have hleads := (hupheld.upholds t.2 ⟨outer, hmoment, rfl⟩ hsuited).leadsTo_last
  obtain ⟨ctx, hat⟩ := hsuited.exists_at
  rcases hM with rfl | rfl
  · exact ⟨hat.fits, hleads.frames.trans hend⟩
  · exact ⟨hleads.fits, hend⟩

end Session

end Lox
