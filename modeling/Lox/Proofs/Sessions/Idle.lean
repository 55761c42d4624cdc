import Lox.Proofs.Identities.Simulation

/-!
# Commands that leave no trace

A text that is only compiled and a text with errors are not executed. By the time the resolver makes
its complaint it may have noted many distances in the table that all texts of the session share, and
functions that were declared long ago are going to consult that table again. Yet such commands can
be left out of a session, any number of them and wherever they stand, and nothing else in the
session is different. For what is noted is noted under identities of the refused text, and these are
on the machine neither then nor later.
-/

namespace Lox

/-- Whether nothing is executed for a command: it only compiles a text, or the text has errors. -/
def Command.isIdle (nesting : Nat) : Command → Bool
  | run source => (Lox.compile nesting source).hasErrors
  | evaluate source => (Lox.compileExpression nesting source).hasErrors
  | compile _ => true

namespace Engine

/-- A command that leaves nothing behind but entries of the table that are never read. -/
structure Traceless (e : Engine) (c : Command) : Prop where
  printed : (e.answer c).printed = []
  issue : (e.answer c).issue? = none
  escaped : (e.answer c).escaped? = none
  begun : (e.answer c).begun = 0
  /-- The machine is what it was, and so are the outputs. -/
  session : (e.serve c).session = e.session
  /-- The table has the same for everything on the machine. -/
  located : (e.serve c).located = e.located
  /-- What is noted is noted under identities that have not been given out before. -/
  entries : ∀ key, (e.serve c).locals key ≠ e.locals key →
    e.nextKey ≤ key ∧ key < (e.serve c).nextKey
  /-- These identities are not on the machine, whatever comes later. -/
  avoided : ∀ later, ((e.serve c).serveAll later).session.machine.HoldsOnly
    fun key ↦ key < e.nextKey ∨ (e.serve c).nextKey ≤ key
  /-- If anything else had been noted under them, nothing would be different later. -/
  unread : ∀ t : Locals,
    (∀ key, key < e.nextKey ∨ (e.serve c).nextKey ≤ key → t key = e.locals key) →
    ∀ later, { e.serve c with locals := t }.history later = (e.serve c).history later

variable {e : Engine} {c : Command}

theorem serve_of_isIdle (h : c.isIdle e.session.host.nesting = true) :
    e.serve c = e.analyzed c := by
  cases c with
  | run source => rw [serve, run_of_errors h, analyzed]
  | evaluate source => rw [serve, evaluate_of_errors h, analyzed]
  | compile source => rfl

theorem session_serve_of_isIdle (h : c.isIdle e.session.host.nesting = true) :
    (e.serve c).session = e.session := by
  rw [serve_of_isIdle h]
  cases c <;> rfl

namespace WellKeyed

variable (h : e.WellKeyed)
include h

theorem located_serve_of_isIdle (hidle : c.isIdle e.session.host.nesting = true) :
    (e.serve c).located = e.located := by
  rw [serve_of_isIdle hidle]
  cases c <;> exact h.located_analyze _ _

/-- Whatever an idle command has noted for its own text, the rest of the session is the same. -/
theorem history_of_locals (hidle : c.isIdle e.session.host.nesting = true) {t : Locals}
    (ht : ∀ key, key < e.nextKey ∨ (e.serve c).nextKey ≤ key → t key = e.locals key)
    (later : List Command) :
    { e.serve c with locals := t }.history later = (e.serve c).history later := by
  have hsession := session_serve_of_isIdle hidle
  have hkeyed : { e.serve c with locals := t }.WellKeyed := by
    refine ⟨(h.serve c).machine, fun key hkey ↦ ?_⟩
    exact (ht key (.inr hkey)).trans (h.locals key (Nat.le_trans (e.nextKey_le_serve c) hkey))
  -- The machine holds older identities only, and for these the two tables have the same.
  have hlocated : { e.serve c with locals := t }.located = (e.serve c).located := by
    rw [h.located_serve_of_isIdle hidle]
    refine Eq.trans ?_ (h.recast_congr fun key hkey ↦ ht key (.inl hkey))
    exact congrArg (Session.recast (.slots t.read)) hsession
  rw [hkeyed.history_located, hlocated, (h.serve c).history_located]

theorem traceless (hidle : c.isIdle e.session.host.nesting = true) : e.Traceless c := by
  have hanswer : (e.answer c).printed = [] ∧ (e.answer c).issue? = none ∧
      (e.answer c).escaped? = none ∧ (e.answer c).begun = 0 := by
    cases c with
    | run source =>
      rw [answer, run_of_errors hidle]
      exact ⟨rfl, rfl, rfl, rfl⟩
    | evaluate source =>
      rw [answer, evaluate_of_errors hidle]
      exact ⟨rfl, rfl, rfl, rfl⟩
    | compile source => exact ⟨rfl, rfl, rfl, rfl⟩
  obtain ⟨hprinted, hissue, hescaped, hbegun⟩ := hanswer
  have hsession := session_serve_of_isIdle hidle
  refine ⟨hprinted, hissue, hescaped, hbegun, hsession, h.located_serve_of_isIdle hidle,
    fun key hkey ↦ ?_, fun later ↦ holdsOnly_serveAll ?_ ?_ later,
    fun t ht later ↦ h.history_of_locals hidle ht later⟩
  · by_contra hrange
    exact hkey (locals_serve (by omega))
  · rw [hsession]
    exact h.machine.mono fun key hkey ↦ decide_eq_true (.inl (of_decide_eq_true hkey))
  · exact fun key hkey ↦ decide_eq_true (.inr hkey)

/-- The commands that are kept are answered as in the whole row, if the others are idle. -/
theorem history_of_kept {row : List (Command × Bool)}
    (hrow : ∀ p ∈ row, p.2 = false → p.1.isIdle e.session.host.nesting = true) :
    e.history ((row.filter Prod.snd).map Prod.fst)
      = (((e.history (row.map Prod.fst)).zip row).filter fun p ↦ p.2.2).map Prod.fst := by
  induction row generalizing e with
  | nil => rfl
  | cons p row ih =>
    obtain ⟨c, kept⟩ := p
    rw [List.forall_mem_cons] at hrow
    have hhost : (e.serve c).session.host = e.session.host :=
      (congrArg Session.host (h.serve_located c).2).trans (Session.host_serve e.located c)
    have hlater := ih (h.serve c) (by rw [hhost]; exact hrow.2)
    cases kept with
    | true =>
      rw [List.filter_cons_of_pos rfl, List.map_cons, history, hlater, List.map_cons, history,
        List.zip_cons_cons, List.filter_cons_of_pos rfl, List.map_cons]
    | false =>
      -- What the table has for the machine is the same behind the idle command.
      rw [(h.serve c).history_located, h.located_serve_of_isIdle (hrow.1 rfl), ← h.history_located]
        at hlater
      rw [List.filter_cons_of_neg Bool.false_ne_true, hlater, List.map_cons, history,
        List.zip_cons_cons, List.filter_cons_of_neg Bool.false_ne_true]

end WellKeyed

/-- Static errors and compilations leave no trace, at whatever point of a session and although all
texts share one table of distances. The table serves for the distances that are filled in
otherwise: every answer and every frame is the same. A text that is only compiled or has errors
prints nothing, begins no statement, reports no issue and changes nothing but entries of the table
that are never read. And such commands can be left out of a row of commands: those that are kept get
the same answers, and after each of them the session is the same. -/
theorem idle_without_trace (host : Host) (earlier : List Command) :
    ((start host).history earlier = (Session.start host).history earlier ∧
      ((start host).serveAll earlier).located = (Session.start host).serveAll earlier) ∧
    (∀ c : Command, c.isIdle host.nesting = true → ((start host).serveAll earlier).Traceless c) ∧
    (∀ row : List (Command × Bool),
      (∀ p ∈ row, p.2 = false → p.1.isIdle host.nesting = true) →
      ((start host).serveAll earlier).history ((row.filter Prod.snd).map Prod.fst)
        = (((((start host).serveAll earlier).history (row.map Prod.fst)).zip row).filter
          fun p ↦ p.2.2).map Prod.fst) := by
  have hstart : (start host).located = .start host :=
    congrArg (fun M ↦ (⟨host, M, []⟩ : Session)) (Machine.recast_start _)
  have hhistory := (wellKeyed_start host).history_located earlier
  obtain ⟨hkeyed, hlocated⟩ := (wellKeyed_start host).serveAll earlier
  rw [hstart] at hhistory hlocated
  have hhost : ((start host).serveAll earlier).session.host = host :=
    (congrArg Session.host hlocated).trans (Session.host_serveAll _ earlier)
  refine ⟨⟨hhistory, hlocated⟩, fun c hidle ↦ hkeyed.traceless ?_,
    fun row hrow ↦ hkeyed.history_of_kept ?_⟩
  · rw [hhost]
    exact hidle
  · rw [hhost]
    exact hrow

/-- An engine on which a function has been declared that reads a variable of its own. -/
def readingEngine : Engine :=
  (start ⟨none, fun _ ↦ 0, 60, 9⟩).serveAll [.run "fun f() \x7b var a; print a; \x7d"]

/-- A text is refused when a distance has been noted for it, another one is only compiled, and a
third one is no expression. The function does the same as without them. -/
theorem idle_without_trace_redeclared :
    Command.isIdle 60 (.run "\x7b var a; print a; var a; \x7d") = true ∧
    (readingEngine.locals 1 = none ∧
      (readingEngine.serve (.run "\x7b var a; print a; var a; \x7d")).locals 1 = some 0) ∧
    readingEngine.Traceless (.run "\x7b var a; print a; var a; \x7d") ∧
    readingEngine.history [.run "f();"]
      = (((readingEngine.history [.run "\x7b var a; print a; var a; \x7d", .compile "f();",
            .evaluate "f(", .run "f();"]).zip
          ([(.run "\x7b var a; print a; var a; \x7d", false), (.compile "f();", false),
            (.evaluate "f(", false), (.run "f();", true)] : List (Command × Bool))).filter
              fun p ↦ p.2.2).map Prod.fst := by
  have hidle : Command.isIdle 60 (.run "\x7b var a; print a; var a; \x7d") = true := by
    decide +kernel
  obtain ⟨-, htraceless, hkept⟩ := idle_without_trace ⟨none, fun _ ↦ 0, 60, 9⟩
    [.run "fun f() \x7b var a; print a; \x7d"]
  exact ⟨hidle, ⟨by decide +kernel, by decide +kernel⟩, htraceless _ hidle,
    hkept [(.run "\x7b var a; print a; var a; \x7d", false), (.compile "f();", false),
      (.evaluate "f(", false), (.run "f();", true)] (by decide +kernel)⟩

end Engine

end Lox
