import Lox.Proofs.Tasks.Limit
import Lox.Session

/-!
# Termination under a limit

Two bounds of a host make the evaluator a total function: the nesting of calls and the rounds of
loops. A limit on statements needs neither. As soon as the bounds are large enough for a run, larger
ones change nothing, and the run does not end for want of them. `Settles` says so of a script and a
machine, and has one rule for each way of putting scripts together, which takes the larger one of
two bounds.

Only statements are counted. So the argument goes by the number of statements that the limit still
leaves, and for expressions by their size: a task asks for tasks about smaller expressions, except
that a call executes the body of a function, and with it one statement at least. Every round of a
loop executes a statement too.
-/

namespace Lox

open Script (perform answer enclose body)

/-- The number of statements that a limit leaves. -/
def Machine.left (limit : Int) (M : Machine) : Nat := (limit - M.steps).toNat

theorem Machine.UpTo.left_le {M M' : Machine} (h : M.UpTo M') (limit : Int) :
    M'.left limit ≤ M.left limit := by
  have := h.steps
  rw [Machine.left, Machine.left]
  omega

theorem Machine.SameStep.left_eq {M M' : Machine} (h : M.SameStep M') (limit : Int) :
    M'.left limit = M.left limit := by
  rw [Machine.left, Machine.left, h.steps]

/-- Another host that differs in the nesting and the rounds it admits, and admits some number of
rounds at least. -/
structure Host.Extends (host : Host) (bound : Nat) (h : Host) : Prop where
  maxSteps : h.maxSteps = host.maxSteps
  clock : h.clock = host.clock
  rounds : bound ≤ h.rounds

theorem Host.Extends.mono {host h : Host} {bound bound' : Nat} (hh : host.Extends bound h)
    (hbound : bound' ≤ bound) : host.Extends bound' h :=
  ⟨hh.maxSteps, hh.clock, Nat.le_trans hbound hh.rounds⟩

/-- Beyond some bound a script does the same from a machine, whatever nesting and rounds are
admitted. If it stops early, this is not for want of them, and no more statements are left than a
given number. -/
def Script.Settles {α : Type} (host : Host) (limit : Int) (r : Nat) (s : Host → Script α)
    (M : Machine) (ok : α → Machine → Prop) : Prop :=
  ∃ bound, ∃ q : Eval α,
    Ends q M ok (fun i M' ↦ i.isShortage = false ∧ M'.left limit ≤ r) ∧
    ∀ h, host.Extends bound h → ∀ nesting ≥ bound, (s h).run (Task.run h nesting) M = q M

namespace Script.Settles

variable {α β : Type} {host : Host} {limit : Int} {r r' : Nat} {M : Machine} {s : Host → Script α}
  {ok ok' : α → Machine → Prop}

/-! ## Rules -/

theorem mono (hs : Settles host limit r s M ok) (hr : r ≤ r')
    (hok : ∀ a M', ok a M' → ok' a M') : Settles host limit r' s M ok' := by
  obtain ⟨bound, q, hq, hrun⟩ := hs
  exact ⟨bound, q, hq.mono hok fun _ _ h ↦ ⟨h.1, Nat.le_trans h.2 hr⟩, hrun⟩

theorem pure {a : α} (h : ok a M) : Settles host limit r (fun _ ↦ Pure.pure a) M ok :=
  ⟨0, Pure.pure a, h, fun _ _ _ _ ↦ rfl⟩

/-- What the machine does may depend on the host, but not on the nesting and the rounds. -/
theorem perform {p : Host → Eval α} (hconst : ∀ h, host.Extends 0 h → p h = p host)
    (hp : Ends (p host) M ok fun i M' ↦ i.isShortage = false ∧ M'.left limit ≤ r) :
    Settles host limit r (fun h ↦ perform (p h)) M ok := by
  refine ⟨0, p host, hp, fun h hh nesting _ ↦ ?_⟩
  rw [run_perform, hconst h hh]

theorem bind {s : Host → Script α} {f : Host → α → Script β} {P : α → Machine → Prop}
    {Q : β → Machine → Prop} (hs : Settles host limit r s M P)
    (hf : ∀ a M₁, P a M₁ → Settles host limit r (fun h ↦ f h a) M₁ Q) :
    Settles host limit r (fun h ↦ s h >>= f h) M Q := by
  obtain ⟨bound, q, hq, hrun⟩ := hs
  cases hM : q M with
  | ok a M₁ =>
    obtain ⟨bound', q', hq', hrun'⟩ := hf a M₁ (hq.of_ok hM)
    refine ⟨max bound bound', fun _ ↦ q' M₁, hq', fun h hh nesting hnesting ↦ ?_⟩
    have hs := hrun h (hh.mono (Nat.le_max_left _ _)) nesting (by omega)
    rw [run_bind, bind_of_ok (hs.trans hM)]
    exact hrun' h (hh.mono (Nat.le_max_right _ _)) nesting (by omega)
  | error i M₁ =>
    refine ⟨bound, fun _ ↦ .error i M₁, hq.of_error hM, fun h hh nesting hnesting ↦ ?_⟩
    rw [run_bind, bind_of_error ((hrun h hh nesting hnesting).trans hM)]

theorem enclose {env : Environment}
    (hs : Settles host limit r s { M with current := env } fun a M' ↦
      ok a { M' with current := M.current }) :
    Settles host limit r (fun h ↦ enclose env (s h)) M ok := by
  obtain ⟨bound, q, hq, hrun⟩ := hs
  refine ⟨bound, Eval.within env q, Eval.ends_within hq, fun h hh nesting hnesting ↦ ?_⟩
  rw [run_enclose, Eval.within, Eval.within, hrun h hh nesting hnesting]

/-- A body may return early, so nothing is known of its value. -/
theorem body {s : Host → Script Unit} {I : Machine → Prop}
    (hs : Settles host limit r s M fun _ M' ↦ I M')
    (hI : ∀ M' : Machine, M'.left limit ≤ r → I M') :
    Settles host limit r (fun h ↦ body (s h)) M fun _ M' ↦ I M' := by
  obtain ⟨bound, q, hq, hrun⟩ := hs
  refine ⟨bound, Eval.catchReturn q, ?_, fun h hh nesting hnesting ↦ ?_⟩
  · exact Eval.ends_catchReturn (hq.mono (fun _ _ h ↦ h)
      fun _ M' h ↦ ⟨fun _ _ ↦ hI M' h.2, fun _ ↦ h⟩)
  · rw [run_body, Eval.catchReturn, Eval.catchReturn, hrun h hh nesting hnesting]

/-- A task settles if what it does settles, with one more nested call. -/
theorem answer {t : Task α} (ht : Settles host limit r (fun h ↦ t.script h) M ok) :
    Settles host limit r (fun _ ↦ answer t) M ok := by
  obtain ⟨bound, q, hq, hrun⟩ := ht
  refine ⟨bound + 1, q, hq, fun h hh nesting hnesting ↦ ?_⟩
  obtain ⟨nesting, rfl⟩ : ∃ k, nesting = k + 1 := ⟨nesting - 1, by omega⟩
  rw [run_answer, Task.run_succ]
  exact hrun h (hh.mono (Nat.le_succ _)) nesting (by omega)

theorem forM {ι : Type} {f : ι → Script Unit} {I : Machine → Prop} {items : List ι}
    (hf : ∀ i M, I M → Settles host limit r (fun _ ↦ f i) M fun _ M₁ ↦ I M₁) (hM : I M) :
    Settles host limit r (fun _ ↦ items.forM f) M fun _ M₁ ↦ I M₁ := by
  induction items generalizing M with
  | nil => exact pure hM
  | cons i items ih => exact bind (hf i M hM) fun _ M₁ h ↦ ih h

theorem each {ι : Type} {f : ι → Script α} {I : Machine → Prop} {items : List ι}
    (hf : ∀ i ∈ items, ∀ M, I M → Settles host limit r (fun _ ↦ f i) M fun _ M₁ ↦ I M₁) (hM : I M) :
    Settles host limit r (fun _ ↦ Script.each f items) M fun _ M₁ ↦ I M₁ := by
  induction items generalizing M with
  | nil => exact pure hM
  | cons i items ih =>
    rw [List.forall_mem_cons] at hf
    exact bind (hf.1 M hM) fun a M₁ h ↦ bind (ih hf.2 h) fun _ _ h' ↦ pure h'

/-- A plain action begins no statement. -/
theorem plain {p : Host → Eval α} (hconst : ∀ h, host.Extends 0 h → p h = p host)
    (hp : (p host).Plain) (hM : M.left limit ≤ r) :
    Settles host limit r (fun h ↦ Script.perform (p h)) M fun _ M' ↦ M'.left limit ≤ r := by
  have hleft : ∀ {M'}, M.SameStep M' → M'.left limit ≤ r := fun h ↦ by rwa [h.left_eq]
  exact perform hconst ((hp M).mono (fun _ _ h ↦ hleft h)
    fun _ _ h ↦ ⟨(Bool.or_eq_false_iff.mp h.2).2, hleft h.1⟩)

/-- The first statement beyond the limit is the last one to be begun. -/
theorem step (hlimit : host.maxSteps = some limit) (hM : M.left limit ≤ r) :
    Settles host limit r (fun h ↦ Script.perform (Eval.step h)) M fun _ M' ↦ M'.left limit < r := by
  have hlater : M.UpTo { M with steps := M.steps + 1 } := ⟨Nat.le_succ _, List.suffix_rfl⟩
  refine perform (fun h hh ↦ ?_) ?_
  · rw [Eval.step, Eval.step, hh.maxSteps]
  · rw [Ends, Eval.step_run, hlimit]
    dsimp only
    by_cases hk : limit < ((M.steps + 1 : Nat) : Int)
    · rw [if_pos hk]
      exact ⟨rfl, Nat.le_trans (hlater.left_le limit) hM⟩
    · rw [if_neg hk]
      rw [Machine.left] at hM
      change (limit - ((M.steps + 1 : Nat) : Int)).toNat < r
      omega

/-- A loop whose rounds execute a statement each comes to an end. -/
theorem repeatWhile {round : Script Bool} (hround : ∀ r' ≤ r, ∀ M, M.left limit ≤ r' →
      Settles host limit r' (fun _ ↦ round) M fun again M' ↦
        M'.left limit ≤ r' ∧ (again = true → M'.left limit < r'))
    (hM : M.left limit ≤ r) :
    Settles host limit r (fun h ↦ Script.repeatWhile round h.rounds) M fun _ M' ↦
      M'.left limit ≤ r := by
  -- Of the rounds that the host admits, some have been made.
  suffices ∀ made, Settles host limit r (fun h ↦ Script.repeatWhile round (h.rounds - made)) M
      fun _ M' ↦ M'.left limit ≤ r from this 0
  induction r using Nat.strongRecOn generalizing M with
  | ind r ih =>
  intro made
  have hunrolled : Settles host limit r (fun h ↦ round >>= fun again ↦
      if again then Script.repeatWhile round (h.rounds - (made + 1)) else Pure.pure ()) M
      fun _ M' ↦ M'.left limit ≤ r := by
    refine bind (hround r (Nat.le_refl r) M hM) fun again M₁ h₁ ↦ ?_
    cases again with
    | false => exact pure h₁.1
    | true =>
      have hless : M₁.left limit < r := h₁.2 rfl
      exact (ih _ hless (fun r' hr' ↦ hround r' (by omega)) (Nat.le_refl _) _).mono
        (Nat.le_of_lt hless) fun _ _ h ↦ Nat.le_trans h (Nat.le_of_lt hless)
  obtain ⟨bound, q, hq, hrun⟩ := hunrolled
  refine ⟨bound + made + 1, q, hq, fun h hh nesting hnesting ↦ ?_⟩
  have hrounds : h.rounds - made = h.rounds - (made + 1) + 1 := by
    have := hh.rounds
    omega
  dsimp only
  rw [hrounds, Script.repeatWhile]
  exact hrun h (hh.mono (by omega)) nesting (by omega)

end Script.Settles

/-! ## Tasks -/

/-- From every machine where a limit leaves no more than a number of statements, a script settles,
and no more are left after it. -/
def Script.Settling {α : Type} (host : Host) (limit : Int) (r : Nat) (s : Host → Script α) : Prop :=
  ∀ M : Machine, M.left limit ≤ r → Settles host limit r s M fun _ M' ↦ M'.left limit ≤ r

namespace Task

open Script (Settles Settling)

variable {host : Host} {limit : Int} {r : Nat}

/-- Where a number of statements is left, expressions and statements settle, and a statement leaves
fewer of them. -/
structure Settled (host : Host) (limit : Int) (r : Nat) : Prop where
  evaluate : ∀ e : Expr, Settling host limit r fun _ ↦ e.script
  execute : ∀ (st : Stmt) (M : Machine), M.left limit ≤ r →
    Settles host limit r (fun h ↦ (Task.execute st).script h) M fun _ M' ↦ M'.left limit < r

theorem Settled.executed (h : Settled host limit r) (st : Stmt) :
    Settling host limit r fun h ↦ (Task.execute st).script h :=
  fun M hM ↦ (h.execute st M hM).mono (Nat.le_refl _) fun _ _ h ↦ Nat.le_of_lt h

/-- Executing the body of a loop is what brings the loop to an end. -/
theorem Settled.loopRound (h : Settled host limit r) (condition : Expr) (body : Stmt) {M : Machine}
    (hM : M.left limit ≤ r) :
    Settles host limit r (fun _ ↦ loopRound condition body) M fun again M' ↦
      M'.left limit ≤ r ∧ (again = true → M'.left limit < r) := by
  refine .bind (.answer (h.evaluate condition M hM)) fun v M₁ h₁ ↦ ?_
  cases v.isTruthy with
  | true =>
    exact .bind (.answer (h.execute body M₁ h₁)) fun _ M₂ h₂ ↦
      .pure ⟨Nat.le_of_lt h₂, fun _ ↦ h₂⟩
  | false => exact .pure ⟨h₁, fun h ↦ absurd h Bool.false_ne_true⟩

theorem settles_forRound (h : ∀ r' ≤ r, Settled host limit r') (condition increment : Option Expr)
    (body : Stmt) {M : Machine} (hM : M.left limit ≤ r) :
    Settles host limit r (fun _ ↦ forRound condition increment body) M fun again M' ↦
      M'.left limit ≤ r ∧ (again = true → M'.left limit < r) := by
  simp only [forRound.eq_def]
  refine .bind (P := fun _ M' ↦ M'.left limit ≤ r) ?_ fun holds M₁ h₁ ↦ ?_
  · cases condition with
    | none => exact .pure hM
    | some e => exact .bind (.answer ((h r (Nat.le_refl r)).evaluate e M hM)) fun _ _ h₁ ↦ .pure h₁
  cases holds with
  | true =>
    refine .bind (.answer ((h r (Nat.le_refl r)).execute body M₁ h₁)) fun _ M₂ h₂ ↦ ?_
    cases increment with
    | none => exact .pure ⟨Nat.le_of_lt h₂, fun _ ↦ h₂⟩
    | some e =>
      -- The increment starts with what the body has left.
      have hincrement := (h (M₂.left limit) (Nat.le_of_lt h₂)).evaluate e M₂ (Nat.le_refl _)
      refine .bind (.answer (hincrement.mono (Nat.le_of_lt h₂) fun _ _ h ↦ h)) fun _ M₃ h₃ ↦ ?_
      have hless : M₃.left limit < r := Nat.lt_of_le_of_lt h₃ h₂
      exact .pure ⟨Nat.le_of_lt hless, fun _ ↦ hless⟩
  | false => exact .pure ⟨h₁, fun h ↦ absurd h Bool.false_ne_true⟩

theorem settling_block (h : Settled host limit r) (items : List Stmt) :
    Settling host limit r fun h ↦ (block items).script h := by
  intro M hM
  refine .bind (.plain (fun _ _ ↦ rfl) .get hM) fun m M₁ h₁ ↦ ?_
  refine .bind (.plain (fun _ _ ↦ rfl) (.newFrame _ _) h₁) fun env M₂ h₂ ↦ ?_
  exact .enclose (.forM (fun st M hM ↦ .answer (h.executed st M hM)) h₂)

theorem settling_forLoop (h : ∀ r' ≤ r, Settled host limit r') (initializer : Option Stmt)
    (condition increment : Option Expr) (body : Stmt) :
    Settling host limit r fun h ↦ (forLoop initializer condition increment body).script h := by
  intro M hM
  refine .bind (.plain (fun _ _ ↦ rfl) .get hM) fun m M₁ h₁ ↦ ?_
  refine .bind (.plain (fun _ _ ↦ rfl) (.newFrame _ _) h₁) fun env M₂ h₂ ↦ ?_
  refine .enclose ?_
  have hrounds : ∀ {M : Machine}, M.left limit ≤ r → Settles host limit r (fun h ↦
      Script.repeatWhile (forRound condition increment body) h.rounds) M
      fun _ M' ↦ M'.left limit ≤ r :=
    fun hM ↦ .repeatWhile (fun r' hr' _ ↦
      settles_forRound (fun r'' hr'' ↦ h r'' (Nat.le_trans hr'' hr')) condition increment body) hM
  cases initializer with
  | none => exact hrounds h₂
  | some st =>
    exact .bind (.answer ((h r (Nat.le_refl r)).executed st _ h₂)) fun _ _ h₃ ↦ hrounds h₃

/-- What a statement does once it has been counted. -/
theorem settling_statement (h : ∀ r' ≤ r, Settled host limit r') (st : Stmt) :
    Settling host limit r st.script := by
  intro M hM
  have hr := h r (Nat.le_refl r)
  cases st with
  | expression value => exact .bind (.answer (hr.evaluate value M hM)) fun _ _ h₁ ↦ .pure h₁
  | print value =>
    exact .bind (.answer (hr.evaluate value M hM)) fun _ _ h₁ ↦
      .plain (fun _ _ ↦ rfl) (.printLine _) h₁
  | var name initializer =>
    cases initializer with
    | none => exact .plain (fun _ _ ↦ rfl) (.define _ _) hM
    | some e =>
      exact .bind (.answer (hr.evaluate e M hM)) fun _ _ h₁ ↦
        .plain (fun _ _ ↦ rfl) (.define _ _) h₁
  | block items => exact .answer (settling_block hr items M hM)
  | branch condition yes no =>
    simp only [Stmt.script]
    refine .bind (.answer (hr.evaluate condition M hM)) fun v M₁ h₁ ↦ ?_
    cases v.isTruthy with
    | true => exact .answer (hr.executed yes M₁ h₁)
    | false =>
      cases no with
      | none => exact .pure h₁
      | some no => exact .answer (hr.executed no M₁ h₁)
  | loop condition body =>
    exact .repeatWhile (fun r' hr' _ ↦ (h r' hr').loopRound condition body) hM
  | forLoop initializer condition increment body =>
    exact .answer (settling_forLoop h initializer condition increment body M hM)
  | function declaration =>
    exact .plain (fun _ _ ↦ rfl)
      (.bind .get fun _ ↦ .bind (.newFunction _ _) fun _ ↦ .define _ _) hM
  | «return» keyword value =>
    cases value with
    | none => exact .plain (fun _ _ ↦ rfl) (.throw rfl) hM
    | some e =>
      exact .bind (.answer (hr.evaluate e M hM)) fun _ _ h₁ ↦ .plain (fun _ _ ↦ rfl) (.throw rfl) h₁
  | «class» name superclass methods =>
    cases superclass with
    | none => exact .plain (fun _ _ ↦ rfl) (.defineClass _ _ _) hM
    | some r =>
      exact .bind (.plain (fun _ _ ↦ rfl) (.superclass r) hM) fun _ _ h₁ ↦
        .plain (fun _ _ ↦ rfl) (.defineClass _ _ _) h₁

/-- Counting a statement leaves fewer of them for the statement itself. -/
theorem settles_execute (hlimit : host.maxSteps = some limit)
    (h : ∀ r' < r, Settled host limit r') (st : Stmt) {M : Machine} (hM : M.left limit ≤ r) :
    Settles host limit r (fun h ↦ (Task.execute st).script h) M fun _ M' ↦ M'.left limit < r := by
  refine .bind (.step hlimit hM) fun _ M₁ h₁ ↦ ?_
  have hsettled : ∀ r' ≤ M₁.left limit, Settled host limit r' :=
    fun r' hr' ↦ h r' (Nat.lt_of_le_of_lt hr' h₁)
  exact (settling_statement hsettled st M₁ (Nat.le_refl _)).mono (Nat.le_of_lt h₁)
    fun _ _ h₂ ↦ Nat.lt_of_le_of_lt h₂ h₁

section Calls

variable (hexecute : ∀ (st : Stmt) (M : Machine), M.left limit ≤ r →
  Settles host limit r (fun h ↦ (Task.execute st).script h) M fun _ M' ↦ M'.left limit < r)

include hexecute

theorem settling_callFunction (f : Closure) (vs : List Value) :
    Settling host limit r fun h ↦ (callFunction f vs).script h := by
  intro M hM
  refine .bind (.plain (fun _ _ ↦ rfl) (.newFrame _ _) hM) fun env M₁ h₁ ↦ ?_
  refine .body (.enclose (.answer ?_)) fun _ h ↦ h
  exact (hexecute f.declaration.body { M₁ with current := env } h₁).mono (Nat.le_refl r)
    fun _ _ h ↦ Nat.le_of_lt h

theorem settling_call (callee : Value) (vs : List Value) :
    Settling host limit r fun h ↦ (call callee vs).script h := by
  intro M hM
  have hfunction : ∀ f : Closure, Settling host limit r fun h ↦ (call (.function f) vs).script h :=
    fun f M hM ↦ .answer (settling_callFunction hexecute f vs M hM)
  cases callee with
  | native n =>
    refine .plain (fun h hh ↦ ?_) (.callNative n vs) hM
    cases n with
    | clock => rw [Eval.callNative, Eval.callNative, Eval.readClock, Eval.readClock, hh.clock]
    | toString => rfl
  | function f => exact hfunction f M hM
  | «class» c =>
    refine .bind (.plain (fun _ _ ↦ rfl) (.newInstance c) hM) fun i M₁ h₁ ↦ ?_
    cases c.findMethod? initializerName with
    | some method =>
      exact .bind (.plain (fun _ _ ↦ rfl) (.bindMethod _ _) h₁) fun f M₂ h₂ ↦
        .bind (.answer (hfunction f M₂ h₂)) fun _ _ h₃ ↦ .pure h₃
    | none => exact .pure h₁
  | nil | bool _ | number _ | string _ | «instance» _ =>
    exact .plain (fun _ _ ↦ rfl) (.throw rfl) hM

/-- The evaluator goes down the expression, and a call only leads to the body of a function. -/
theorem settling_evaluate : ∀ e : Expr, Settling host limit r fun _ ↦ e.script
  | .literal value, M, hM => .pure hM
  | .group inner, M, hM => .answer (settling_evaluate inner M hM)
  | .unary operator operand, M, hM =>
    .bind (.answer (settling_evaluate operand M hM)) fun _ _ h₁ ↦
      .plain (fun _ _ ↦ rfl) (.unary _ _) h₁
  | .binary left operator right, M, hM =>
    .answer (.bind (.answer (settling_evaluate left M hM)) fun _ M₁ h₁ ↦
      .bind (.answer (settling_evaluate right M₁ h₁)) fun _ _ h₂ ↦
        .plain (fun _ _ ↦ rfl) (.binary _ _ _) h₂)
  | .logical left operator right, M, hM => by
    refine .bind (.answer (settling_evaluate left M hM)) fun v M₁ h₁ ↦ ?_
    split
    · exact .pure h₁
    · exact .answer (settling_evaluate right M₁ h₁)
  | .var target, M, hM => .plain (fun _ _ ↦ rfl) (.lookup target) hM
  | .property object name, M, hM =>
    .bind (.answer (settling_evaluate object M hM)) fun _ _ h₁ ↦
      .plain (fun _ _ ↦ rfl) (.property _ _) h₁
  | .assign target value, M, hM =>
    .answer (.bind (.answer (settling_evaluate value M hM)) fun _ M₁ h₁ ↦
      .bind (.plain (fun _ _ ↦ rfl) (.assign _ _) h₁) fun _ _ h₂ ↦ .pure h₂)
  | .setProperty object name value, M, hM =>
    .answer (.bind (.answer (settling_evaluate value M hM)) fun _ M₁ h₁ ↦
      .bind (.answer (settling_evaluate object M₁ h₁)) fun _ _ h₂ ↦
        .bind (.plain (fun _ _ ↦ rfl) (.setProperty _ _ _) h₂) fun _ _ h₃ ↦ .pure h₃)
  | .call callee paren items, M, hM =>
    .answer (.bind (.answer (settling_evaluate callee M hM)) fun f M₁ h₁ ↦
      .bind (.answer (.each (fun e _ M hM ↦ .answer (settling_evaluate e M hM)) h₁)) fun vs _ h₂ ↦
        .bind (.plain (fun _ _ ↦ rfl) (.checkCall _ _ _) h₂) fun _ M₃ h₃ ↦
          .answer (settling_call hexecute f vs M₃ h₃))
  | .self keyword, M, hM => .plain (fun _ _ ↦ rfl) (.lookup keyword) hM
  | .inherited keyword method, M, hM => .plain (fun _ _ ↦ rfl) (.inherited _ _) hM

end Calls

theorem settled (hlimit : host.maxSteps = some limit) (r : Nat) : Settled host limit r := by
  induction r using Nat.strongRecOn with
  | ind r ih =>
  have hexecute : ∀ (st : Stmt) (M : Machine), M.left limit ≤ r →
      Settles host limit r (fun h ↦ (Task.execute st).script h) M fun _ M' ↦ M'.left limit < r :=
    fun st _ ↦ settles_execute hlimit ih st
  exact ⟨settling_evaluate hexecute, hexecute⟩

end Task

/-! ## Programs and expressions -/

namespace Host

variable {α : Type}

/-- A computation comes to an end from a machine even if nothing bounds the nesting and the rounds:
once enough of both are admitted, the result is always the same, and it is not a lack of them. -/
def Terminates (host : Host) (p : Host → Eval α) (M : Machine) : Prop :=
  ∃ (bound : Nat) (result : EStateM.Result Interrupt Machine α),
    (∀ i M', result = .error i M' → i.isShortage = false) ∧
    ∀ nesting ≥ bound, ∀ rounds ≥ bound,
      p { host with nesting := nesting, rounds := rounds } M = result

/-- However large a number is, a computation begins more statements than that, once enough nesting
and rounds are admitted. -/
def Outgrows (host : Host) (p : Host → Eval α) (M : Machine) : Prop :=
  ∀ n : Nat, ∃ bound : Nat, ∀ nesting ≥ bound, ∀ rounds ≥ bound,
    Ends (p { host with nesting := nesting, rounds := rounds }) M (fun _ M' ↦ n < M'.steps)
      fun _ M' ↦ n < M'.steps

end Host

/-- The script behind a computation: all that it does is to ask for tasks, and these settle. -/
structure Script.Behind {α : Type} (s : Script α) (p : Host → Eval α) : Prop where
  run : ∀ h : Host, s.run (Task.run h h.nesting) = p h
  performs : ∀ good : (α : Type) → Eval α → Prop, s.Performs good True
  settles : ∀ {host : Host} {limit : Int}, host.maxSteps = some limit → ∀ r,
    Settling host limit r fun _ ↦ s

namespace Script.Behind

variable {α : Type} {s : Script α} {p : Host → Eval α} {n : Nat} {limit : Option Int}

theorem program (items : List Stmt) :
    (programScript items).Behind fun h ↦ Eval.run h items where
  run h := run_programScript h items
  performs _ := .forM (fun _ ↦ .answer _) items
  settles hlimit r _ hM :=
    .forM (fun st M hM ↦ .answer ((Task.settled hlimit r).executed st M hM)) hM

theorem expression (e : Expr) : Behind (do return (← answer (.evaluate e)).text)
    fun h ↦ Session.textOf h e where
  run h := by
    rw [run_bind, run_answer]
    rfl
  performs _ := .bind (.answer _) fun _ ↦ .pure _
  settles hlimit r M hM :=
    .bind (.answer ((Task.settled hlimit r).evaluate e M hM)) fun _ _ h ↦ .pure h

theorem terminates (hs : s.Behind p) (host : Host) (limit : Int) (M : Machine) :
    Host.Terminates { host with maxSteps := some limit } p M := by
  have hlimit : ({ host with maxSteps := some limit } : Host).maxSteps = some limit := rfl
  obtain ⟨bound, q, hq, hrun⟩ := hs.settles hlimit (M.left limit) M (Nat.le_refl _)
  refine ⟨bound, q M, fun i M' hM' ↦ (hq.of_error hM').1, fun nesting hnesting rounds hrounds ↦ ?_⟩
  rw [← hs.run]
  exact hrun { host with maxSteps := some limit, nesting := nesting, rounds := rounds }
    ⟨rfl, rfl, hrounds⟩ nesting hnesting

theorem truncates (hs : s.Behind p) (host : Host) (hlimit : ∀ k ∈ limit, (n : Int) ≤ k) :
    Eval.Truncates (stepLimit n) (p { host with maxSteps := some (n : Int) })
      (p { host with maxSteps := limit }) := by
  have hK := Eval.congruent_truncates (stepLimit_ne_returning n)
  rw [← hs.run, ← hs.run]
  have htasks {β : Type} (t : Task β) : Eval.Truncates (stepLimit n)
      (t.run { host with maxSteps := some (n : Int) } host.nesting)
      (t.run { host with maxSteps := limit } host.nesting) :=
    @Task.run_congruent { host with maxSteps := some (n : Int) } _ limit hK Eval.Quiet.truncates
      (Eval.truncates_step hlimit) host.nesting β t
  exact Script.run_congruent hK htasks (hs.performs _)

theorem budgeted (hs : s.Behind p) {host : Host} (hn : host.maxSteps = some (n : Int)) :
    Eval.Budgeted n (p host) := by
  rw [← hs.run]
  exact @Script.run_congruent α (fun _ p _ ↦ Eval.Budgeted n p) Eval.congruent_budgeted
    (Task.run host host.nesting) (Task.run host host.nesting)
    (fun t ↦ budgeted_task hn host.nesting t) s (hs.performs _)

/-- What is cut short under every limit begins more statements than any of them admits. -/
theorem terminates_or_outgrows (hs : s.Behind p) (host : Host) (M : Machine) :
    Host.Terminates { host with maxSteps := none } p M ∨
      Host.Outgrows { host with maxSteps := none } p M := by
  by_cases hends : Host.Terminates { host with maxSteps := none } p M
  · exact .inl hends
  refine .inr fun n ↦ ?_
  obtain ⟨bound, result, hresult, hrun⟩ := hs.terminates host (n : Int) M
  have htruncates : ∀ nesting rounds, Eval.Truncates (stepLimit n)
      (p { host with maxSteps := some (n : Int), nesting := nesting, rounds := rounds })
      (p { host with maxSteps := none, nesting := nesting, rounds := rounds }) :=
    fun nesting rounds ↦ hs.truncates { host with nesting := nesting, rounds := rounds } nofun
  -- If the limit did not cut it short, the computation would end in the same way without it.
  have hcut : ∃ M₁, result = .error (stepLimit n) M₁ := by
    refine Classical.byContradiction fun hcomplete ↦ hends ⟨bound, result, hresult, ?_⟩
    intro nesting hnesting rounds hrounds
    have hp := hrun nesting hnesting rounds hrounds
    obtain heq | ⟨M₁, hshort, -⟩ := (htruncates nesting rounds).agrees M
    · exact heq.trans hp
    · exact absurd ⟨M₁, hp.symm.trans hshort⟩ hcomplete
  obtain ⟨M₁, rfl⟩ := hcut
  refine ⟨bound, fun nesting hnesting rounds hrounds ↦ ?_⟩
  have hp := hrun nesting hnesting rounds hrounds
  have hsteps : n < M₁.steps := by
    obtain ⟨hother, -⟩ | ⟨-, hcount⟩ := (hs.budgeted rfl M).of_error hp
    · cases hother
    · omega
  obtain heq | ⟨M₂, hshort, hpasses⟩ := (htruncates nesting rounds).agrees M
  · rw [Ends, heq, hp]
    exact hsteps
  · cases hp.symm.trans hshort
    exact hpasses.mono (fun _ _ h ↦ Nat.lt_of_lt_of_le hsteps h.steps)
      fun _ _ h ↦ Nat.lt_of_lt_of_le hsteps h.steps

end Script.Behind

/-- Under a limit on statements, however large, every program and every expression comes to an end
from every machine, without any other bound. So without a limit as well, what does not come to an
end begins more and more statements: there is no other way to go on forever. -/
theorem limit_terminates (host : Host) (M : Machine) :
    (∀ limit : Int,
      (∀ program : List Stmt, Host.Terminates { host with maxSteps := some limit }
        (fun h ↦ Eval.run h program) M) ∧
      ∀ e : Expr, Host.Terminates { host with maxSteps := some limit }
        (fun h ↦ Session.textOf h e) M) ∧
    (∀ program : List Stmt,
      Host.Terminates { host with maxSteps := none } (fun h ↦ Eval.run h program) M ∨
        Host.Outgrows { host with maxSteps := none } (fun h ↦ Eval.run h program) M) ∧
    ∀ e : Expr,
      Host.Terminates { host with maxSteps := none } (fun h ↦ Session.textOf h e) M ∨
        Host.Outgrows { host with maxSteps := none } (fun h ↦ Session.textOf h e) M :=
  ⟨fun limit ↦ ⟨fun program ↦ (Script.Behind.program program).terminates host limit M,
      fun e ↦ (Script.Behind.expression e).terminates host limit M⟩,
    fun program ↦ (Script.Behind.program program).terminates_or_outgrows host M,
    fun e ↦ (Script.Behind.expression e).terminates_or_outgrows host M⟩

end Lox
