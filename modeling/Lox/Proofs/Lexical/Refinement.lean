import Lox.Proofs.Lexical.Session
import Lox.Proofs.Lexical.Simulation.Statement
import Lox.Proofs.Scoping.Compilation

/-!
# Sessions refine the lexical semantics

A session and a machine of the lexical semantics that serve the same commands show the same reports.
The correspondence of the two machines is what holds between any two commands. It is there at the
start, and every command keeps it: a program without errors is resolved, so the simulation applies.

There is one way to part. A program that assigns to a local variable in the initializer of that
variable sends the evaluator astray when it gets there, and it may get there in a later command,
from a function that was declared in an earlier one.
-/

namespace Lox.Lexical

variable {excused : String → Prop} {β : Placement} {s : Session} {μ : Machine} {α α' : Type}

/-! ## Between commands -/

/-- A session and a machine of the lexical semantics correspond, between two commands. -/
def Corresponds (excused : String → Prop) (s : Session) (μ : Machine) : Prop :=
  ∃ β, Meets excused β [] .outside s.machine μ

theorem meets_outside {M : Lox.Machine} (h : Matches excused β M μ)
    (hcurrent : M.current = Lox.Machine.globals) : Meets excused β [] .outside M μ :=
  ⟨h, .outside, trivial, hcurrent ▸ .outside, trivial, rfl⟩

theorem Corresponds.excuse {excused' : String → Prop} (h : Corresponds excused s μ)
    (hexcused : ∀ x, excused x → excused' x) : Corresponds excused' s μ := by
  obtain ⟨β, h⟩ := h
  exact ⟨β, { h with agree := h.agree.excuse hexcused }⟩

/-- Only the built-in functions are there at the start. -/
theorem matches_start : Matches excused (fun _ _ ↦ none) .start .start where
  frames := Nat.le_refl _
  builtins := by
    refine Bindings.related_ofList
      (List.forall₂_map_right_iff.mpr (List.forall₂_map_left_iff.mpr ?_))
    exact List.forall₂_same.mpr fun n _ ↦ ⟨rfl, .native⟩
  globals := Bindings.related_empty
  located := fun _ _ _ h ↦ by cases h
  unlocated := fun id x hid _ ↦ by
    rw [Store.record_of_le (s := Lox.Machine.start.frames) hid, Bindings.get?_empty]
  apart := fun _ _ _ _ _ h ↦ by cases h
  suits := fun id x V hid h ↦ by
    rw [Store.record_of_le (s := Lox.Machine.start.frames) hid] at h
    cases h
  objectsNext := rfl
  objects := fun id ↦ by
    rw [Store.record_of_le (s := Lox.Machine.start.objects) (Nat.zero_le _),
      Store.record_of_le (s := Machine.start.objects) (Nat.zero_le _)]
    exact Bindings.related_empty
  nextId := rfl
  steps := rfl
  readings := rfl
  printed := rfl

theorem corresponds_start (excused : String → Prop) (host : Host) :
    Corresponds excused (.start host) .start := ⟨_, meets_outside matches_start rfl⟩

/-- The globals show the same names and texts. -/
theorem globals_eq {M : Lox.Machine} (h : Matches excused β M μ) :
    (M.frames.record Lox.Machine.globalFrame).entries.map (fun e ↦ (e.1, e.2.text))
      = μ.globalTexts := by
  rw [Machine.globalTexts, ← List.forall₂_eq_eq_eq]
  refine List.forall₂_map_left_iff.mpr (List.forall₂_map_right_iff.mpr (h.globals.imp ?_))
  rintro ⟨x, V⟩ ⟨_, v⟩ ⟨rfl, hV⟩
  exact congrArg (Prod.mk x) hV.text_eq

/-! ## One command -/

theorem outcome_eq {text : α → Option String} {text' : α' → Option String} {i : Lox.Interrupt}
    {i' : Interrupt} (h : InterruptMatches excused false β i i') :
    Lox.Outcome.ofResult text (.error i) = Outcome.ofResult text' (.error i') := by
  cases h <;> rfl

/-- The session was left because of a variable that is excused. -/
def Astray (excused : String → Prop) (escaped : Option Lox.Interrupt) : Prop :=
  ∃ x, escaped = some (.desync (.unbound x 0)) ∧ excused x

/-- The machines between two commands, with nothing printed yet. -/
theorem corresponds_after {M : Lox.Machine} {μ' : Machine} (h : Matches excused β M μ')
    (hcurrent : M.current = Lox.Machine.globals) (result : Except Lox.Interrupt α) :
    Corresponds excused (s.after M result).2 { μ' with printed := [] } :=
  ⟨β, meets_outside { h with printed := rfl } hcurrent⟩

/-- If the machines correspond and the outcomes are the same, so are the reports. -/
theorem report_eq {M : Lox.Machine} {μ' : Machine} (h : Matches excused β M μ')
    (hsteps : s.machine.steps = μ.steps) {text : α → Option String}
    {result : Except Lox.Interrupt α} {outcome : Lox.Outcome}
    (houtcome : Lox.Outcome.ofResult text result = outcome) :
    (s.after M result).2.report text (s.after M result).1 = (μ.after μ' outcome).1 := by
  rw [Session.report, Session.after, Machine.after, houtcome, hsteps]
  simp only [Session.globals]
  rw [globals_eq h, h.printed, h.steps]

/-- Something is done in lockstep. -/
theorem perform_eq {p : Lox.Eval α} {q : Eval α'} (text : α → Option String)
    (text' : α' → Option String) (hs : Corresponds excused s μ)
    (h : ∀ β, Meets excused β [] .outside s.machine μ → Lockstep excused false β p s.machine q μ
      fun β' M' μ' a a' ↦ Meets excused β' [] .outside M' μ' ∧ text a = text' a') :
    ∃ μ', Corresponds excused (s.perform p).2 μ' ∧
      (((s.perform p).2.report text (s.perform p).1, μ') = μ.perform text' q ∨
        Astray excused (s.perform p).1.escaped?) := by
  obtain ⟨β, hmeets⟩ := hs
  have hlockstep := h β hmeets
  have hcurrent : s.machine.current = Lox.Machine.globals := by
    have hplaced := hmeets.placed
    generalize s.machine.current = env at hplaced
    cases hplaced
    rfl
  rw [Session.perform, Machine.perform]
  cases hp : p s.machine with
  | ok a M =>
    obtain ⟨β', a', μ', hq, hlater, hmeets', htext⟩ := hlockstep.ok_of hp
    rw [hq]
    refine ⟨_, corresponds_after hmeets'.agree (hlater.current.trans hcurrent) (.ok a), .inl ?_⟩
    exact Prod.ext (report_eq hmeets'.agree hmeets.agree.steps (congrArg Outcome.done htext)) rfl
  | error i M =>
    obtain ⟨β', μ', hlater, hagree, hcase⟩ := hlockstep.error_of hp
    refine ⟨_, corresponds_after hagree (hlater.current.trans hcurrent) (.error i), ?_⟩
    rcases hcase with ⟨i', hq, hi⟩ | ⟨x, rfl, hx⟩
    · rw [hq]
      exact .inl (Prod.ext (report_eq hagree hmeets.agree.steps (outcome_eq hi)) rfl)
    · exact .inr ⟨x, rfl, hx⟩

/-- Outside of all scopes statements declare globals, which no context lists. -/
theorem foldl_after_outside (program : List Stmt) : program.foldl Context.after [] = [] := by
  induction program with
  | nil => rfl
  | cons st program ih =>
    have hafter : Context.after [] st = [] :=
      List.isEmpty_iff.mp (Context.isEmpty_after [] st)
    rw [List.foldl_cons, hafter, ih]

/-- A resolved program goes in lockstep. -/
theorem run_lockstep {M : Lox.Machine} (host : Host) {program : List Stmt} {inside : Bool}
    (hprogram : Stmt.RowScoped excused inside [] program)
    (h : Meets excused β [] .outside M μ) :
    Lockstep excused inside β (Lox.Eval.run host program) M (Eval.run host program) μ
      fun β' M' μ' _ _ ↦ Meets excused β' [] .outside M' μ' := by
  refine ((simulates excused host host.nesting).row h hprogram).andReturn
    fun β' M' μ' _ scope' h' ↦ ?_
  rw [foldl_after_outside] at h'
  have hscope : scope' = .outside := h'.scope
  exact hscope ▸ h'

theorem textOf_lockstep {M : Lox.Machine} (host : Host) {e : Expr} (he : e.Scoped excused [] none)
    (h : Meets excused β [] .outside M μ) :
    Lockstep excused false β (Session.textOf host e) M (Machine.textOf host e) μ
      (Yields excused [] .outside fun _ text text' ↦ text = text') :=
  ((simulates excused host host.nesting).evaluate h (awaits_none []) he).bind
    fun _ _ _ _ _ _ ⟨h', hV⟩ ↦ .pure ⟨h', hV.text_eq⟩

/-- A command is served alike, or else the session goes astray. -/
theorem answer_eq (hs : Corresponds excused s μ) (r : Command)
    (hexcused : ∀ program ∈ r.program? s.host.nesting, ∀ x,
      Stmt.anySelfAssigns x false program = true → excused x) :
    ∃ μ', Corresponds excused (s.serve r) μ' ∧
      ((s.report? r, μ') = μ.answer s.host r ∨ Astray excused (s.escaped? r)) := by
  cases r with
  | run source =>
    rw [Session.serve, Session.report?, Session.escaped?, Machine.answer]
    cases hclean : (compile s.host.nesting source).hasErrors with
    | true =>
      rw [Session.run_of_errors hclean]
      exact ⟨μ, hs, .inl rfl⟩
    | false =>
      rw [Session.run_of_clean hclean]
      have hprogram := rowScoped_of_compile hclean (hexcused _ (by
        rw [Command.program?]
        simp [hclean]))
      obtain ⟨μ', hs', hcase⟩ := perform_eq (fun _ ↦ none) (fun _ ↦ none)
        (s := { s with outputs := [] :: s.outputs }) hs
        fun β h ↦ (run_lockstep s.host hprogram h).mono fun _ _ _ _ _ _ h ↦ ⟨h, rfl⟩
      exact ⟨μ', hs', hcase.imp_left fun heq ↦ congrArg (Prod.map some id) heq⟩
  | evaluate source =>
    rw [Session.serve, Session.report?, Session.escaped?, Machine.answer]
    cases hclean : (compileExpression s.host.nesting source).hasErrors with
    | true =>
      rw [Session.evaluate_of_errors hclean]
      cases (compileExpression s.host.nesting source).result <;> exact ⟨μ, hs, .inl rfl⟩
    | false =>
      cases hresult : (compileExpression s.host.nesting source).result with
      | none =>
        rw [Session.evaluate_of_none hresult]
        exact ⟨μ, hs, .inl rfl⟩
      | some e =>
        rw [Session.evaluate_of_clean hclean hresult]
        have he : e.Scoped excused [] none := scoped_of_compileExpression hclean hresult
        obtain ⟨μ', hs', hcase⟩ := perform_eq some some hs
          fun β h ↦ (textOf_lockstep s.host he h).mono
            fun _ _ _ _ _ _ h ↦ ⟨h.1, congrArg some h.2⟩
        exact ⟨μ', hs', hcase.imp_left fun heq ↦ congrArg (Prod.map some id) heq⟩
  | compile source => exact ⟨μ, hs, .inl rfl⟩

/-! ## Rows of commands -/

/-- Whatever a session has been asked for, there is a machine that it corresponds to. As long as the
session has not gone astray, it is the one that has served the same commands. -/
theorem exists_corresponds (commands : List Command) (hs : Corresponds excused s μ)
    (hexcused : ∀ program ∈ accepted s.host.nesting commands, ∀ x,
      Stmt.anySelfAssigns x false program = true → excused x) :
    ∃ μ', Corresponds excused (s.serveAll commands) μ' ∧
      ((∀ report, some report ∈ s.reports commands → report.outcome ≠ .astray) →
        s.reports commands = μ.reports s.host commands ∧ μ' = μ.serveAll s.host commands) := by
  induction commands generalizing s μ with
  | nil => exact ⟨μ, hs, fun _ ↦ ⟨rfl, rfl⟩⟩
  | cons r rest ih =>
    have hmem : ∀ program ∈ r.program? s.host.nesting,
        program ∈ accepted s.host.nesting (r :: rest) :=
      fun program h ↦ List.mem_filterMap.mpr ⟨r, List.mem_cons_self, h⟩
    have hrest : ∀ program ∈ accepted s.host.nesting rest,
        program ∈ accepted s.host.nesting (r :: rest) := by
      intro program h
      obtain ⟨r', hr', h⟩ := List.mem_filterMap.mp h
      exact List.mem_filterMap.mpr ⟨r', List.mem_cons_of_mem _ hr', h⟩
    obtain ⟨μ₁, hs₁, hcase⟩ := answer_eq hs r fun program h ↦ hexcused program (hmem program h)
    obtain ⟨μ', hs', hreports⟩ := ih hs₁ fun program h ↦
      hexcused program (hrest program (by rwa [Session.host_serve] at h))
    -- If nothing has gone astray, the first command was served alike, and so were the others.
    refine ⟨μ', hs', fun hsane ↦ ?_⟩
    obtain ⟨hsame, hmachine⟩ := hreports fun report h ↦ hsane report (List.mem_cons_of_mem _ h)
    rw [Session.host_serve] at hsame hmachine
    rcases hcase with heq | ⟨x, hescaped, -⟩
    · have hreport : s.report? r = (μ.answer s.host r).1 := congrArg Prod.fst heq
      obtain rfl : μ₁ = (μ.answer s.host r).2 := congrArg Prod.snd heq
      rw [Session.reports, Machine.reports, hreport, hsame]
      exact ⟨rfl, hmachine⟩
    · obtain ⟨report, hreport, hastray⟩ := Session.exists_report_of_escaped hescaped
      refine absurd hastray (hsane report ?_)
      rw [Session.reports, hreport]
      exact List.mem_cons_self

/-- From corresponding states the reports are the same, until the session goes astray. -/
theorem reports_of_corresponds {earlier : List Command} (later : List Command)
    (hs : Corresponds (SelfAssigned s.host.nesting earlier) s μ) :
    s.reports later = μ.reports s.host later ∨ ∃ before r after x, later = before ++ r :: after ∧
      s.reports before = μ.reports s.host before ∧
      (s.serveAll before).escaped? r = some (.desync (.unbound x 0)) ∧
      SelfAssigned s.host.nesting (earlier ++ before ++ [r]) x := by
  induction later generalizing s μ earlier with
  | nil => exact .inl rfl
  | cons r rest ih =>
    obtain ⟨μ₁, hs₁, hcase⟩ := answer_eq (hs.excuse fun x hx ↦ hx.append [r]) r
      fun program hr x hx ↦ selfAssigned_of_program hr hx
    rcases hcase with heq | ⟨x, hescaped, hx⟩
    · have hreport : s.report? r = (μ.answer s.host r).1 := congrArg Prod.fst heq
      obtain rfl : μ₁ = (μ.answer s.host r).2 := congrArg Prod.snd heq
      rw [← Session.host_serve s r] at hs₁
      have hcase := ih hs₁
      rw [Session.host_serve] at hcase
      rw [Session.reports, Machine.reports, hreport]
      rcases hcase with hrest | ⟨before, r', after, x, rfl, hbefore, hescaped, hx⟩
      · exact .inl (congrArg _ hrest)
      · refine .inr ⟨r :: before, r', after, x, rfl, ?_, hescaped, ?_⟩
        · rw [Session.reports, Machine.reports, hreport, hbefore]
        · rw [List.append_assoc earlier [r] before, List.singleton_append] at hx
          exact hx
    · exact .inr ⟨[], r, rest, x, rfl, rfl, hescaped, by rw [List.append_nil]; exact hx⟩

/-- Sessions show what the lexical semantics shows. Whatever has been asked for earlier, there is a
machine of the lexical semantics from which everything later looks the same, up to the first command
that goes astray; and that can only be one that gets to an assignment to a local variable in its own
initializer, in a program that has been accepted by then. If nothing has gone astray earlier, the
machine is the one that has served the same commands, with the same reports. -/
theorem session_refines_lexical (host : Host) (earlier : List Command) :
    ∃ μ : Machine,
      ((∀ report, some report ∈ (Session.start host).reports earlier → report.outcome ≠ .astray) →
        (Session.start host).reports earlier = Machine.start.reports host earlier ∧
          μ = Machine.start.serveAll host earlier) ∧
      ∀ later, ((Session.start host).serveAll earlier).reports later = μ.reports host later ∨
        ∃ before r after x, later = before ++ r :: after ∧
          ((Session.start host).serveAll earlier).reports before = μ.reports host before ∧
          ((Session.start host).serveAll (earlier ++ before)).escaped? r
            = some (.desync (.unbound x 0)) ∧
          SelfAssigned host.nesting (earlier ++ before ++ [r]) x := by
  obtain ⟨μ, hs, hsane⟩ := exists_corresponds earlier
    (corresponds_start (SelfAssigned host.nesting earlier) host)
    fun program hprogram x hx ↦ ⟨program, hprogram, hx⟩
  have hhost : ((Session.start host).serveAll earlier).host = host := Session.host_serveAll ..
  refine ⟨μ, hsane, fun later ↦ ?_⟩
  have hs' : Corresponds (SelfAssigned ((Session.start host).serveAll earlier).host.nesting earlier)
      ((Session.start host).serveAll earlier) μ := by
    rw [hhost]
    exact hs
  have hlater := reports_of_corresponds later hs'
  rw [hhost] at hlater
  simp only [Session.serveAll, List.foldl_append] at hlater ⊢
  exact hlater

/-- The first text declares a function that the evaluator cannot run, and the second one calls it.
In the lexical semantics there is nothing wrong with the function but a variable that is not
defined. -/
theorem reports_ne_lexical :
    ((Session.start ⟨none, fun _ ↦ 0, 60, 10⟩).reports
        [.run "fun f() \x7b var a = (a = nil); \x7d", .run "f();"]).map (Option.map Report.outcome)
      = [some (.done none), some .astray] ∧
    (Machine.start.reports ⟨none, fun _ ↦ 0, 60, 10⟩
        [.run "fun f() \x7b var a = (a = nil); \x7d", .run "f();"]).map (Option.map Report.outcome)
      = [some (.done none), some (.issue ⟨.undefinedVariable "a", some 1⟩)] := by
  decide +kernel

end Lox.Lexical
