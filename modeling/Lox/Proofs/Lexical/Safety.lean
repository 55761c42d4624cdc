import Lox.Proofs.Lexical.Access
import Lox.Proofs.Lexical.Refinement
import Lox.Proofs.Tasks.Returns

/-!
# What cannot go wrong in a session

The resolver and the evaluator agree about scopes at every moment of every session, and no part of a
program is left in a way that nobody expects. Both follow from the soundness of all chains of tasks:
a session corresponds to the lexical semantics between any two commands, so whatever a command
executes starts at a sound place.
-/

namespace Lox

/-- While a session serves a command, a chain of tasks is being done. -/
def Session.Doing (s : Session) (nesting : Nat) (chain : List Begun) : Command → Prop
  | .run source =>
    (compile s.host.nesting source).hasErrors = false ∧
      Lox.Doing s.host (programScript (compile s.host.nesting source).program) s.machine
        nesting chain
  | .evaluate source =>
    (compileExpression s.host.nesting source).hasErrors = false ∧
      ∃ e, (compileExpression s.host.nesting source).result = some e ∧
        Lox.Doing s.host (Script.answer (.evaluate e)) s.machine nesting chain
  | .compile _ => False

theorem Session.Doing.exists_script {s : Session} {nesting : Nat} {chain : List Begun} {r : Command}
    (h : s.Doing nesting chain r) :
    ∃ (α : Type) (script : Script α), Lox.Doing s.host script s.machine nesting chain := by
  cases r with
  | run source => exact ⟨_, _, h.2⟩
  | evaluate source =>
    obtain ⟨-, e, -, hdoing⟩ := h
    exact ⟨_, _, hdoing⟩
  | compile source => exact h.elim

namespace Lexical

open Script (Heeds)

variable {excused : String → Prop} {s : Session} {μ : Machine} {nesting : Nat} {chain : List Begun}
  {α α' : Type}

/-! ## One command -/

theorem heeds_program {β : Placement} {M : Lox.Machine} {host : Host} {program : List Stmt}
    (h : Meets excused β [] .outside M μ) (hprogram : Stmt.RowScoped excused false [] program) :
    Heeds (Task.run host nesting) (Sound excused []) (programScript program) M fun _ _ ↦ True :=
  heeds_row h hprogram fun _ _ hinside ↦ by cases hinside

/-- Whatever is done for a command is sound. -/
theorem sound_of_serving (hs : Corresponds excused s μ) {r : Command}
    (hexcused : ∀ program ∈ r.program? s.host.nesting, ∀ x,
      Stmt.anySelfAssigns x false program = true → excused x) (h : s.Doing nesting chain r) :
    ∃ t M outer, chain = (t, M) :: outer ∧ Sound excused outer t M := by
  obtain ⟨β, hmeets⟩ := hs
  cases r with
  | run source =>
    obtain ⟨hclean, hdoing⟩ := h
    have hprogram := rowScoped_of_compile hclean (hexcused _ (by
      rw [Command.program?]
      simp [hclean]))
    exact sound_of_doing (heeds_program hmeets hprogram) hdoing
  | evaluate source =>
    obtain ⟨hclean, e, hresult, hdoing⟩ := h
    exact sound_of_doing
      (heeds_evaluate_none hmeets (scoped_of_compileExpression hclean hresult)) hdoing
  | compile source => exact h.elim

/-- A computation that goes in lockstep is left because of an issue, or because a loop made too many
rounds, or because of a variable that is excused. -/
theorem escaped_of_lockstep {p : Lox.Eval α} {q : Eval α'} (hs : Corresponds excused s μ)
    (h : ∀ β, Meets excused β [] .outside s.machine μ → Lockstep excused false β p s.machine q μ
      fun _ _ _ _ _ ↦ True) {i : Lox.Interrupt} (hi : (s.perform p).1.escaped? = some i) :
    i = .exhausted ∨ Lost excused i := by
  obtain ⟨β, hmeets⟩ := hs
  rw [Session.perform] at hi
  cases hp : p s.machine with
  | ok a M =>
    rw [hp] at hi
    cases hi
  | error i' M =>
    rw [hp] at hi
    obtain ⟨β', μ', -, -, ⟨j, -, hmatches⟩ | hlost⟩ := (h β hmeets).error_of hp
    · cases hmatches with
      | issue => cases hi
      | exhausted => exact .inl (Option.some.inj hi).symm
    · obtain ⟨x, rfl, hx⟩ := hlost
      exact .inr ⟨x, (Option.some.inj hi).symm, hx⟩

theorem escaped_of_serving (hs : Corresponds excused s μ) {r : Command}
    (hexcused : ∀ program ∈ r.program? s.host.nesting, ∀ x,
      Stmt.anySelfAssigns x false program = true → excused x) {i : Lox.Interrupt}
    (hi : s.escaped? r = some i) : i = .exhausted ∨ Lost excused i := by
  cases r with
  | run source =>
    rw [Session.escaped?] at hi
    cases hclean : (compile s.host.nesting source).hasErrors with
    | true =>
      rw [Session.run_of_errors hclean] at hi
      cases hi
    | false =>
      rw [Session.run_of_clean hclean] at hi
      have hprogram := rowScoped_of_compile hclean (hexcused _ (by
        rw [Command.program?]
        simp [hclean]))
      exact escaped_of_lockstep (s := { s with outputs := [] :: s.outputs }) hs (fun β h ↦
        (run_lockstep s.host hprogram h).mono fun _ _ _ _ _ _ _ ↦ trivial) hi
  | evaluate source =>
    rw [Session.escaped?] at hi
    cases hresult : (compileExpression s.host.nesting source).result with
    | none =>
      rw [Session.evaluate_of_none hresult] at hi
      cases hi
    | some e =>
      cases hclean : (compileExpression s.host.nesting source).hasErrors with
      | true =>
        rw [Session.evaluate_of_errors hclean] at hi
        cases hi
      | false =>
        rw [Session.evaluate_of_clean hclean hresult] at hi
        exact escaped_of_lockstep hs (fun β h ↦
          (textOf_lockstep s.host (scoped_of_compileExpression hclean hresult) h).mono
            fun _ _ _ _ _ _ _ ↦ trivial) hi
  | compile source => cases hi

/-! ## Sessions -/

/-- Between any two commands there is a corresponding machine of the lexical semantics, if what has
been accepted and what is going to be executed is excused. -/
theorem exists_corresponds_before (host : Host) (earlier : List Command) (r : Command) :
    ∃ μ, Corresponds (SelfAssigned host.nesting (earlier ++ [r]))
      ((Session.start host).serveAll earlier) μ ∧
      ∀ program ∈ r.program? ((Session.start host).serveAll earlier).host.nesting, ∀ x,
        Stmt.anySelfAssigns x false program = true →
          SelfAssigned host.nesting (earlier ++ [r]) x := by
  obtain ⟨μ, hs, -⟩ := exists_corresponds earlier
    (corresponds_start (SelfAssigned host.nesting (earlier ++ [r])) host)
    fun program hprogram x hx ↦ SelfAssigned.append ⟨program, hprogram, hx⟩ [r]
  have hhost : ((Session.start host).serveAll earlier).host = host := Session.host_serveAll ..
  refine ⟨μ, hs, fun program hprogram x hx ↦ ?_⟩
  rw [hhost] at hprogram
  exact selfAssigned_of_program hprogram hx

/-- The resolver and the evaluator agree about scopes, with one exception. Whenever a name is read
at a distance, there is a frame and it binds the name. Whenever a name is written at a distance,
there is a frame, and it binds the name unless the distance is zero and the assignment is a part of
the initializer of a variable of that name that is not a global. So a command goes astray only if
such an assignment is in a program that has been accepted by then. -/
theorem desync_only_in_own_initializer (host : Host) (earlier : List Command) (r : Command) :
    (∀ nesting t M outer, ((Session.start host).serveAll earlier).Doing nesting
      ((t, M) :: outer) r →
      (∀ M' d x, Task.Reads host t M M' d x →
        (∃ env, M'.current.ancestor d = .ok env) ∧ ∃ v, M'.frames.getAt M'.current d x = .ok v) ∧
      (∀ M' d x v, Task.Writes host nesting t M M' d x v →
        (∃ env, M'.current.ancestor d = .ok env) ∧
          ((∃ frames, M'.frames.assignAt M'.current d x v = .ok frames) ∨
            d = 0 ∧ ∃ name initializer, Token.lexeme name = x ∧
              Initializing name initializer ((t, M) :: outer)))) ∧
    ∀ desync, ((Session.start host).serveAll earlier).escaped? r = some (.desync desync) →
      ∃ x, desync = .unbound x 0 ∧ SelfAssigned host.nesting (earlier ++ [r]) x := by
  obtain ⟨μ, hs, hexcused⟩ := exists_corresponds_before host earlier r
  refine ⟨fun nesting t M outer hdoing ↦ ?_, fun desync hdesync ↦ ?_⟩
  · obtain ⟨_, _, _, heq, hsound⟩ := sound_of_serving hs hexcused hdoing
    cases heq
    refine ⟨fun M' d x hreads ↦ ?_, fun M' d x v hwrites ↦ ?_⟩
    · obtain ⟨hframe, v, hv, -⟩ := hsound.readable hreads
      exact ⟨hframe, v, hv⟩
    · obtain ⟨hframe, hwritable | ⟨-, hzero, -, hinitializing⟩⟩ := hsound.writable hwrites
      · exact ⟨hframe, .inl hwritable⟩
      · exact ⟨hframe, .inr ⟨hzero, hinitializing⟩⟩
  · rcases escaped_of_serving hs hexcused hdesync with h | ⟨x, hx, hself⟩
    · cases h
    · exact ⟨x, Lox.Interrupt.desync.inj hx, hself⟩

/-- A program that declares nothing assigns to no variable in its own initializer. -/
theorem steady_of_expressions {program : List Stmt}
    (h : (program.all fun st ↦ decide (st.nodeName = "ExpressionStatement")) = true) :
    Steady program := by
  intro x
  induction program with
  | nil => rfl
  | cons st program ih =>
    simp only [List.all_cons, Bool.and_eq_true, decide_eq_true_eq] at h
    rw [Stmt.anySelfAssigns, ih h.2]
    cases st <;> first | rfl | simp [Stmt.nodeName] at h

/-- The exception outlives its program: the first text declares a function that goes astray, and
nothing is wrong with the second one but that it calls the function. -/
theorem desync_after_declaration :
    (compile 60 "f();").hasErrors = false ∧ Steady (compile 60 "f();").program ∧
    ((Session.start ⟨none, fun _ ↦ 0, 60, 10⟩).serveAll
        [.run "fun f() \x7b var a = (a = nil); \x7d"]).escaped? (.run "f();")
      = some (.desync (.unbound "a" 0)) := by
  refine ⟨by decide +kernel, steady_of_expressions (by decide +kernel), ?_⟩
  have hastray : (((Session.start ⟨none, fun _ ↦ 0, 60, 10⟩).serveAll
      [.run "fun f() \x7b var a = (a = nil); \x7d"]).escaped? (.run "f();")).any (fun
        | .desync desync => decide (desync = .unbound "a" 0)
        | _ => false) = true := by decide +kernel
  revert hastray
  generalize Session.escaped? _ _ = escaped
  intro hastray
  cases escaped with
  | none => cases hastray
  | some i =>
    cases i with
    | desync desync => exact congrArg (some ∘ Lox.Interrupt.desync) (of_decide_eq_true hastray)
    | _ => cases hastray

/-- Nothing gets stuck and no return gets out. A command that is left for another reason than an
issue is left because a distance does not fit, or because a loop made more rounds than the host
admits. A return statement is executed only inside of a call whose function has it in its body, and
what it returns is the value of that call. What is found as `super` is a class, and what is found as
`this` is an instance. -/
theorem never_stuck (host : Host) (earlier : List Command) (r : Command) :
    (∀ i, ((Session.start host).serveAll earlier).escaped? r = some i →
      i = .exhausted ∨ ∃ desync, i = .desync desync) ∧
    ∀ nesting t M outer, ((Session.start host).serveAll earlier).Doing nesting ((t, M) :: outer) r →
      (∀ keyword value, t = ⟨_, .execute (.return keyword value)⟩ →
        ∃ inner f arguments M₀ rest,
          (t, M) :: outer = inner ++ (⟨_, .callFunction f arguments⟩, M₀) :: rest ∧
          (∀ b ∈ inner, ∃ st, b.1.2.statement? = some st ∧ f.declaration.body.Contains st) ∧
          ∀ v M', t.2.run host nesting M = .error (.returning v) M' →
            ∃ M'', (Task.callFunction f arguments).run host (nesting + inner.length) M₀
              = .ok v M'') ∧
      (∀ M' d, Task.Reads host t M M' d "super" →
        ∃ c, M'.frames.getAt M'.current d "super" = .ok (.class c)) ∧
      (∀ M' d, Task.Reads host t M M' d "this" →
        ∃ i, M'.frames.getAt M'.current d "this" = .ok (.instance i)) := by
  obtain ⟨μ, hs, hexcused⟩ := exists_corresponds_before host earlier r
  have hhost : ((Session.start host).serveAll earlier).host = host := Session.host_serveAll ..
  refine ⟨fun i hi ↦ ?_, fun nesting t M outer hdoing ↦ ?_⟩
  · rcases escaped_of_serving hs hexcused hi with h | ⟨x, hx, -⟩
    · exact .inl h
    · exact .inr ⟨_, hx⟩
  · obtain ⟨_, _, _, heq, hsound⟩ := sound_of_serving hs hexcused hdoing
    cases heq
    refine ⟨?_, fun M' d hreads ↦ ?_, fun M' d hreads ↦ ?_⟩
    · rintro keyword value rfl
      obtain ⟨β, μ', ctx, scope, inside, -, hscoped, hreturns⟩ := hsound.of_statement rfl
      cases hscoped
      -- A sound place admits a return only inside of a call.
      obtain ⟨f, arguments, M₀, hrunning, hcontains⟩ := hreturns rfl
      obtain ⟨α, script, hdoing⟩ := hdoing.exists_script
      rw [hhost] at hdoing
      have hinner : Running f arguments M₀ ((⟨_, .execute (.return keyword value)⟩, M) :: outer) :=
        .inner rfl hcontains hrunning
      obtain ⟨inner, rest, heq, hparts, hcall⟩ := hinner.run_of_returning hdoing
      refine ⟨inner, f, arguments, M₀, rest, heq, hparts, ?_⟩
      -- The chain begins with the statement itself, so the call is further out.
      cases inner with
      | nil =>
        have hstatement := congrArg
          (fun chain : List Begun ↦ chain.head?.bind fun b ↦ b.1.2.statement?) heq
        cases hstatement
      | cons b inner =>
        obtain ⟨rfl, -⟩ := List.cons.inj heq
        exact hcall _ rfl
    · obtain ⟨-, v, hv, hsuits⟩ := hsound.readable hreads
      obtain ⟨c, rfl⟩ := hsuits.parent rfl
      exact ⟨c, hv⟩
    · obtain ⟨-, v, hv, hsuits⟩ := hsound.readable hreads
      obtain ⟨i, rfl⟩ := hsuits.self rfl
      exact ⟨i, hv⟩

end Lexical

end Lox
