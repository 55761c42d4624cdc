import Lox.Proofs.Lexical.Safety
import Lox.Proofs.Loops.Identity
import Lox.Proofs.Loops.Simulation
import Lox.Proofs.Loops.Unrolling
import Lox.Proofs.Scoping.Depth
import Lox.Proofs.Sessions.Budget
import Lox.Proofs.Syntax.Shape
import Lox.Proofs.Tasks.Depth

/-!
# For loops and while loops

A for statement and the block with a while loop in it that says the same cannot be told apart, not
by what the resolver complains about and not by what is seen of an execution. The second form makes
more nested calls than the first one, and begins more statements. So the two are compared without a
limit on statements, and where neither of them runs out of nested calls.

That two executions agree is a matter of their machines; what is left to do here is to get to the
machines. A session starts with a machine that is aligned with itself. What comes out of the
resolver is the same code with additional frames. And a distance that does not fit is zero, whatever
additional frames there are, since a place of a resolved program is left that way in one case only.
-/

namespace Lox

/-! ## What is seen of an execution -/

/-- How the execution of a program ends. -/
inductive Ending where
  | done
  | returned (text : String)
  | issue (issue : Issue)
  | desync (desync : Desync)
  | stuck
  | exhausted
  deriving DecidableEq

namespace Ending

def ofResult : Except Interrupt Unit → Ending
  | .ok () => done
  | .error (.returning v) => returned v.text
  | .error (.issue i) => issue i
  | .error (.desync d) => desync d
  | .error .stuck => stuck
  | .error .exhausted => exhausted

/-- The execution runs out of nested calls. -/
def overflow : Ending := issue (.anywhere .stackOverflow)

end Ending

/-- What is seen of the execution of a program: how it ends, what it prints, and the globals
afterwards with the texts of their values. -/
structure Showing where
  ending : Ending
  printed : List String
  globals : List (String × String)
  deriving DecidableEq

namespace Session

/-- What is seen when a program is executed. -/
def showing (s : Session) (program : List Stmt) : Showing :=
  let (e, s) := s.execute program
  ⟨.ofResult e.result, e.printed, s.globals⟩

/-- A session without a limit on statements, where certain numbers of nested calls and of rounds are
admitted. -/
def withBounds (s : Session) (nesting rounds : Nat) : Session :=
  { s with host := { s.host with maxSteps := none, nesting, rounds } }

/-- With enough nested calls and rounds a program comes to its end, and this is what is seen. -/
def Shows (s : Session) (program : List Stmt) (w : Showing) : Prop :=
  ∃ nesting rounds, (s.withBounds nesting rounds).showing program = w ∧ w.ending ≠ .overflow ∧
    w.ending ≠ .exhausted

/-- Two programs cannot be told apart. The second one may need three times as many nested calls. -/
structure Interchangeable (s : Session) (program program' : List Stmt) : Prop where
  shown : ∀ rounds n n', ((s.withBounds n rounds).showing program).ending ≠ .overflow →
    ((s.withBounds n' rounds).showing program').ending ≠ .overflow →
    (s.withBounds n rounds).showing program = (s.withBounds n' rounds).showing program'
  enough : ∀ rounds n, ((s.withBounds n rounds).showing program).ending ≠ .overflow →
    ((s.withBounds (3 * n) rounds).showing program').ending ≠ .overflow
  plenty : ∀ rounds n, ((s.withBounds n rounds).showing program').ending ≠ .overflow →
    ((s.withBounds n rounds).showing program).ending ≠ .overflow

/-- If one of the two comes to its end then so does the other one. -/
theorem Interchangeable.shows_iff {s : Session} {program program' : List Stmt}
    (h : s.Interchangeable program program') (w : Showing) :
    s.Shows program w ↔ s.Shows program' w := by
  constructor
  · rintro ⟨n, rounds, rfl, hoverflow, hexhausted⟩
    have heq := h.shown rounds n (3 * n) hoverflow (h.enough rounds n hoverflow)
    exact ⟨3 * n, rounds, heq.symm, hoverflow, hexhausted⟩
  · rintro ⟨n, rounds, rfl, hoverflow, hexhausted⟩
    have heq := h.shown rounds n n (h.plenty rounds n hoverflow) hoverflow
    exact ⟨n, rounds, heq, hoverflow, hexhausted⟩

section Showing

variable {s : Session} {program : List Stmt} {M : Machine}

theorem showing_of_ok (h : Eval.run s.host program s.machine = .ok () M) :
    s.showing program = ⟨.done, M.printed.reverse,
      (M.frames.record Machine.globalFrame).entries.map fun e ↦ (e.1, e.2.text)⟩ := by
  rw [showing, execute, perform_of_ok (s := { s with outputs := [] :: s.outputs }) h]
  rfl

theorem showing_of_error {i : Interrupt} (h : Eval.run s.host program s.machine = .error i M) :
    s.showing program = ⟨.ofResult (.error i), M.printed.reverse,
      (M.frames.record Machine.globalFrame).entries.map fun e ↦ (e.1, e.2.text)⟩ := by
  rw [showing, execute, perform_of_error (s := { s with outputs := [] :: s.outputs }) h]
  rfl

theorem overflow_iff :
    (s.showing program).ending = .overflow ↔ Overflows (Eval.run s.host program) s.machine := by
  constructor
  · intro h
    cases hrun : Eval.run s.host program s.machine with
    | ok a M =>
      rw [showing_of_ok hrun] at h
      cases h
    | error i M =>
      rw [showing_of_error hrun] at h
      cases i with
      | issue i =>
        obtain rfl : i = .anywhere .stackOverflow := Ending.issue.inj h
        exact ⟨M, hrun⟩
      | _ => cases h
  · rintro ⟨M, hrun⟩
    rw [showing_of_error hrun]
    rfl

/-- More nested calls make no difference where there are enough. -/
theorem showing_deeper {rounds n m : Nat} (hle : n ≤ m)
    (h : ((s.withBounds n rounds).showing program).ending ≠ .overflow) :
    (s.withBounds m rounds).showing program = (s.withBounds n rounds).showing program := by
  have hsame : Eval.run (s.withBounds m rounds).host program s.machine
      = Eval.run (s.withBounds n rounds).host program s.machine := by
    refine ((truncates_program { s.host with maxSteps := none, rounds } hle program).agrees
      s.machine).resolve_right ?_
    rintro ⟨M, hstop, -⟩
    exact h (overflow_iff.mpr ⟨M, hstop⟩)
  cases hrun : Eval.run (s.withBounds n rounds).host program s.machine with
  | ok a M => rw [showing_of_ok hrun, showing_of_ok (hsame.trans hrun)]
  | error i M => rw [showing_of_error hrun, showing_of_error (hsame.trans hrun)]

end Showing

end Session

/-! ## Executions that agree -/

theorem Eval.run_withNesting (host : Host) (nesting : Nat) (program : List Stmt) :
    Eval.run { host with nesting } program = program.forM (Eval.execute host nesting) := by
  have hstatement : Eval.execute { host with nesting } nesting = Eval.execute host nesting :=
    funext fun st ↦ Task.run_withNesting host nesting nesting (.execute st)
  rw [Eval.run, hstatement]

/-- If a distance does not fit, it is zero. -/
def Eval.Close (p : Eval Unit) (M : Machine) : Prop :=
  ∀ d M', p M = .error (.desync d) M' → ∃ x, d = .unbound x 0

/-- A name is not bound at a distance of zero, on both sides. -/
theorem Desync.Similar.eq_of_close {d d' : Desync} (h : d.Similar d') {x x' : String}
    (hd : d = .unbound x 0) (hd' : d' = .unbound x' 0) : d = d' := by
  subst hd hd'
  cases h
  rfl

theorem Lexical.close_of_corresponds {excused : String → Prop} {s : Session} {μ : Machine}
    {inside : Bool} {program : List Stmt} (hs : Corresponds excused s μ) (host : Host)
    (hprogram : Stmt.RowScoped excused inside [] program) :
    Eval.Close (Lox.Eval.run host program) s.machine := by
  intro d M hrun
  obtain ⟨β, hmeets⟩ := hs
  obtain ⟨_, _, -, -, (⟨i', -, hmatches⟩ | ⟨x, hx, -⟩)⟩ :=
    (run_lockstep host hprogram hmeets).error_of hrun
  · cases hmatches
  · exact ⟨x, Lox.Interrupt.desync.inj hx⟩

namespace Session

variable {s : Session} {τ : Pairing} {Γ : Padding} {program program' : List Stmt}
  {rounds n n' : Nat}
  {side : Side}

theorem agrees_run (hample : side.Ample n n') (h : Meets τ Γ s.machine s.machine)
    (hpads : Stmt.RowPads Γ program program') :
    Agrees side τ (Eval.run (s.withBounds n rounds).host program) s.machine
      (Eval.run (s.withBounds n' rounds).host program') s.machine fun _ _ _ ↦ True := by
  have hall : AgreesAll { s.host with maxSteps := none, rounds } side n n' := agreesAll rfl hample
  have hrow := hall.row h hpads
  rw [← Eval.run_withNesting, ← Eval.run_withNesting] at hrow
  exact hrow

theorem showing_of_agrees {R : Pairing → Unit → Unit → Prop} {t t' : Session}
    (h : Agrees side τ (Eval.run t.host program) t.machine (Eval.run t'.host program') t'.machine R)
    (hroomy : ¬ side.Overflows (Eval.run t.host program) t.machine (Eval.run t'.host program')
      t'.machine)
    (hclose : Eval.Close (Eval.run t.host program) t.machine)
    (hclose' : Eval.Close (Eval.run t'.host program') t'.machine) :
    t.showing program = t'.showing program' := by
  cases h with
  | short hshort => exact absurd hshort hroomy
  | ok hp hq _ haligned _ =>
    rw [showing_of_ok hp, showing_of_ok hq, haligned.globals_eq, haligned.printed]
  | error hp hq _ haligned hi =>
    rw [showing_of_error hp, showing_of_error hq, haligned.globals_eq, haligned.printed]
    cases hi with
    | returning hV => rw [Ending.ofResult, Ending.ofResult, hV.text_eq]
    | desync hd =>
      obtain ⟨x, hx⟩ := hclose _ _ hp
      obtain ⟨x', hx'⟩ := hclose' _ _ hq
      rw [hd.eq_of_close hx hx']
    | issue | stuck | exhausted => rfl

theorem interchangeable (h : Meets τ Γ s.machine s.machine)
    (hpads : Stmt.RowPads Γ program program')
    (hclose : ∀ host, Eval.Close (Eval.run host program) s.machine)
    (hclose' : ∀ host, Eval.Close (Eval.run host program') s.machine) :
    s.Interchangeable program program' := by
  have hfirst : ∀ {rounds n n'}, Side.Ample .first n n' →
      ((s.withBounds n rounds).showing program).ending ≠ .overflow →
      (s.withBounds n rounds).showing program = (s.withBounds n' rounds).showing program' :=
    fun hample hroomy ↦ showing_of_agrees (agrees_run hample h hpads)
      (fun hshort ↦ hroomy (overflow_iff.mpr hshort)) (hclose _) (hclose' _)
  refine ⟨fun rounds n n' hroomy hroomy' ↦ ?_, fun rounds n hroomy ↦ ?_, fun rounds n hroomy ↦ ?_⟩
  · rw [← showing_deeper (Nat.le_max_left n' (3 * n)) hroomy']
    exact hfirst (Nat.le_max_right n' (3 * n)) hroomy
  · rw [← hfirst (Nat.le_refl _) hroomy]
    exact hroomy
  · have hample : Side.Ample .second n n := Nat.le_refl n
    rw [showing_of_agrees (agrees_run hample h hpads)
      (fun hshort ↦ hroomy (overflow_iff.mpr hshort)) (hclose _) (hclose' _)]
    exact hroomy

end Session

/-! ## Programs -/

/-- The resolver makes the same of a program however its for statements are written, and has the
same complaints. -/
theorem resolveProgram_unrolled {program program' resolved resolved' : List Stmt} {inside : Bool}
    {m m' : Nat} (hunrolls : Stmt.RowUnrolls program program')
    (hshaped : ∀ st ∈ program, st.Shaped inside)
    (h : (resolveProgram m program).result = some resolved)
    (h' : (resolveProgram m' program').result = some resolved') :
    (resolveProgram m program).errors = (resolveProgram m' program').errors ∧
      Stmt.RowPads [false, false] resolved resolved' := by
  have halike := Stmt.rowAlike_of_unrolls program hunrolls hshaped .outside
    (Padding.isOpen_common _)
  have hresolved := resolveProgram_of_some h
  have hresolved' := resolveProgram_of_some h'
  rw [hresolved] at h ⊢
  rw [hresolved'] at h' ⊢
  cases h
  cases h'
  exact ⟨halike.complaints, halike.pads⟩

/-- A for statement agrees with the block and the while loop that say the same. Let any number of
the for statements of a program be written that way, wherever they are in it. If the bound on nested
calls is large enough, the resolver gets through both programs. Wherever it does, it has the same
complaints about them. If it has none, then from any state of a session the two end in the same way,
print the same lines and leave the same globals, unless one of them runs out of nested calls, and
one of them comes to its end if the other one does. -/
theorem for_agrees_with_while (host : Host) (earlier : List Command) {nesting : Nat}
    {source : String} {program program' : List Stmt}
    (hparsed : (parseProgram nesting (scan source).tokens (scan source).finish).result
      = .ok program)
    (hunrolls : Stmt.RowUnrolls program program') :
    (∃ enough, ∀ m, enough ≤ m → (resolveProgram m program).result.isSome = true ∧
      (resolveProgram m program').result.isSome = true) ∧
    ∀ m m' resolved resolved', (resolveProgram m program).result = some resolved →
      (resolveProgram m' program').result = some resolved' →
      (resolveProgram m program).errors = (resolveProgram m' program').errors ∧
      ((resolveProgram m program).errors = [] →
        ((Session.start host).serveAll earlier).Interchangeable resolved resolved' ∧
        ∀ w, ((Session.start host).serveAll earlier).Shows resolved w ↔
          ((Session.start host).serveAll earlier).Shows resolved' w) := by
  have hshaped := shaped_of_parseProgram hparsed
  have hshaped' := Stmt.shaped_of_rowUnrolls program hunrolls hshaped
  refine ⟨⟨max (sizeOf program) (sizeOf program'), fun m hm ↦ ?_⟩,
    fun m m' resolved resolved' h h' ↦ ?_⟩
  · rw [resolveProgram_eq (Nat.le_trans (Nat.le_max_left _ _) hm),
      resolveProgram_eq (Nat.le_trans (Nat.le_max_right _ _) hm)]
    exact ⟨rfl, rfl⟩
  obtain ⟨herrors, hpads⟩ := resolveProgram_unrolled hunrolls hshaped h h'
  refine ⟨herrors, fun hclean ↦ ?_⟩
  -- The session starts with a machine that is aligned with itself.
  obtain ⟨hcurrent, links, -, hlinked⟩ :=
    Session.linked_serveAll (s := Session.start host) Machine.linked_start earlier
  -- Distances may fail to fit in both programs, but in the same way.
  obtain ⟨μ, hs, -⟩ := Lexical.exists_corresponds earlier
    (Lexical.corresponds_start (fun _ ↦ True) host) fun _ _ _ _ ↦ trivial
  have hclose := fun host ↦ Lexical.close_of_corresponds hs host
    (rowScoped_of_resolveProgram hshaped h hclean fun _ _ ↦ trivial)
  have hclose' := fun host ↦ Lexical.close_of_corresponds hs host
    (rowScoped_of_resolveProgram hshaped' h' (herrors ▸ hclean) fun _ _ ↦ trivial)
  have hsame := Session.interchangeable (hlinked.meets_self hcurrent) hpads hclose hclose'
  exact ⟨hsame, hsame.shows_iff⟩

/-- The loop `for (;; nil()) print nil;` is left in its first round, behind the body, and so is the
one that is written with `while`. -/
theorem for_agrees_with_while_once :
    ∃ paren body resolved resolved',
      (parseProgram 20 (scan "for (;; nil()) print nil;").tokens
          (scan "for (;; nil()) print nil;").finish).result
        = .ok [.forLoop none none (some (.call (.literal .nil) paren [])) body] ∧
      (resolveProgram 20 [.forLoop none none (some (.call (.literal .nil) paren [])) body]).result
        = some resolved ∧
      (resolveProgram 20 [.unrolled none none (some (.call (.literal .nil) paren [])) body]).result
        = some resolved' ∧
      (Session.start ⟨none, fun _ ↦ 0, 20, 10⟩).Shows resolved
        ⟨.issue ⟨.notCallable, some 1⟩, ["nil"], []⟩ ∧
      (Session.start ⟨none, fun _ ↦ 0, 20, 10⟩).Shows resolved'
        ⟨.issue ⟨.notCallable, some 1⟩, ["nil"], []⟩ := by
  have htokens : (scan "for (;; nil()) print nil;").tokens
      = [⟨.for, "for", .nil, 1⟩, ⟨.leftParen, "(", .nil, 1⟩, ⟨.semicolon, ";", .nil, 1⟩,
        ⟨.semicolon, ";", .nil, 1⟩, ⟨.nil, "nil", .nil, 1⟩, ⟨.leftParen, "(", .nil, 1⟩,
        ⟨.rightParen, ")", .nil, 1⟩, ⟨.rightParen, ")", .nil, 1⟩, ⟨.print, "print", .nil, 1⟩,
        ⟨.nil, "nil", .nil, 1⟩, ⟨.semicolon, ";", .nil, 1⟩] := by decide +kernel
  have hfinish : (scan "for (;; nil()) print nil;").finish = ⟨.eof, "", .nil, 1⟩ := by
    decide +kernel
  have hparsed : (parseProgram 20 (scan "for (;; nil()) print nil;").tokens
      (scan "for (;; nil()) print nil;").finish).result = .ok [.forLoop none none
        (some (.call (.literal .nil) ⟨.rightParen, ")", .nil, 1⟩ []))
          (.print (.literal .nil))] := by
    rw [htokens, hfinish]
    rfl
  obtain ⟨-, hagree⟩ := for_agrees_with_while ⟨none, fun _ ↦ 0, 20, 10⟩ [] hparsed
    (.cons (.unrolled .none (Stmt.Unrolls.refl _)) .nil)
  obtain ⟨-, hsame⟩ := hagree 20 20 _ _ rfl rfl
  have hshows : (Session.start ⟨none, fun _ ↦ 0, 20, 10⟩).Shows
      [.forLoop none none (some (.call (.literal .nil) ⟨.rightParen, ")", .nil, 1⟩ []))
        (.print (.literal .nil))] ⟨.issue ⟨.notCallable, some 1⟩, ["nil"], []⟩ :=
    ⟨20, 10, by decide +kernel, by decide, by decide⟩
  exact ⟨_, _, _, _, hparsed, rfl, rfl, hshows, ((hsame rfl).2 _).mp hshows⟩

end Lox
