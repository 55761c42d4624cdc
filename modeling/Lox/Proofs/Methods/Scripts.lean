import Lox.Proofs.Methods.Actions

/-!
# Scripts and the frames of methods

Whatever a script asks for is asked for at a place that fits, and whatever the script does, the
frames bind `this` and `super` as before. What is known of a task that is asked for includes that
its end precedes the end of the script. So all moments of a run come before the end of the run, and
any two of them can be compared there.

All this is relative to a history, which tells of the tasks as they are begun. What is said of a
script is said for a history that tells of everything the script asks for.
-/

namespace Lox

namespace Eval

variable {α β : Type} {H : History} {p : Eval α} {M M' : Machine}

/-- The machine after a computation, however it ends. -/
def last (p : Eval α) (M : Machine) : Machine :=
  match p M with
  | .ok _ M' => M'
  | .error _ M' => M'

theorem last_of_ok {a : α} (h : p M = .ok a M') : p.last M = M' := by rw [last, h]

theorem last_of_error {i : Interrupt} (h : p M = .error i M') : p.last M = M' := by rw [last, h]

theorem last_bind_of_ok {f : α → Eval β} {a : α} (h : p M = .ok a M') :
    (p >>= f).last M = (f a).last M' := by rw [last, last, bind_of_ok h]

theorem last_within (env : Environment) (p : Eval α) (M : Machine) :
    (within env p).last M = { p.last { M with current := env } with current := M.current } := by
  rw [last, last, within]
  cases p { M with current := env } <;> rfl

theorem last_catchReturn (p : Eval Unit) (M : Machine) : (catchReturn p).last M = p.last M := by
  rw [last, last, catchReturn]
  cases p M with
  | ok _ _ => rfl
  | error i _ => cases i <;> rfl

theorem Upholds.leadsTo_last {post : α → Store Value → Prop} (h : p.Upholds H M post) :
    M.LeadsTo H (p.last M) := by
  rw [last]
  cases hp : p M with
  | ok a M' => exact (h.of_ok hp).1
  | error i M' => exact (h.of_error hp).1

end Eval

/-! ## Where a task stands -/

namespace Task

/-- The function that a task calls. -/
def function? {α : Type} : Task α → Option Closure
  | callFunction f _ => some f
  | _ => none

/-- The answer to a task fits the frames. -/
def AnswerFits (H : History) : {α : Type} → Task α → α → Store Value → Prop
  | _, evaluate _, v, s => v.Fits H s
  | _, binary _ _ _, v, s => v.Fits H s
  | _, assignment _ _, v, s => v.Fits H s
  | _, propertyAssignment _ _ _, v, s => v.Fits H s
  | _, invocation _ _ _, v, s => v.Fits H s
  | _, arguments _, vs, s => ∀ v ∈ vs, v.Fits H s
  | _, call _ _, v, s => v.Fits H s
  | _, callFunction _ _, v, s => v.Fits H s
  | _, execute _, _, _ => True
  | _, block _, _, _ => True
  | _, forLoop _ _ _ _, _, _ => True

/-- A task is begun at a place that fits, in the body of a function or outside of all functions. -/
inductive Suited (H : History) (running : Option Closure) : Sigma Task → Machine → Prop
  | expressions {t : Sigma Task} {es : List Expr} {M : Machine} {ctx : Context}
      {pending : Option String} :
      t.2.expressions? = some es → M.At H running ctx → (∀ x ∈ pending, Ordinary x) →
      (∀ e ∈ es, e.Scoped anyName ctx pending) → Suited H running t M
  | statement {t : Sigma Task} {st : Stmt} {M : Machine} {ctx : Context} {inside : Bool} :
      t.2.statement? = some st → M.At H running ctx → st.Scoped anyName inside ctx →
      Suited H running t M
  | call {callee : Value} {vs : List Value} {M : Machine} {ctx : Context} :
      M.At H running ctx → callee.Fits H M.frames → (∀ v ∈ vs, v.Fits H M.frames) →
      Suited H running ⟨_, .call callee vs⟩ M
  | callFunction {f : Closure} {vs : List Value} {M : Machine} {ctx : Context} :
      M.At H running ctx → f.Fits H M.frames → (∀ v ∈ vs, v.Fits H M.frames) →
      Suited H running ⟨_, .callFunction f vs⟩ M

theorem Suited.exists_at {H : History} {running : Option Closure} {t : Sigma Task} {M : Machine}
    (h : Suited H running t M) : ∃ ctx, M.At H running ctx := by
  cases h with
  | expressions _ hM | statement _ hM | call hM | callFunction hM => exact ⟨_, hM⟩

theorem Suited.of_expressions {H : History} {running : Option Closure} {t : Sigma Task}
    {es : List Expr} {M : Machine} (h : Suited H running t M) (hes : t.2.expressions? = some es) :
    ∃ ctx pending, M.At H running ctx ∧ ∀ e ∈ es, e.Scoped anyName ctx pending := by
  cases h with
  | expressions hes' hM _ hscoped =>
    obtain rfl := Option.some.inj (hes'.symm.trans hes)
    exact ⟨_, _, hM, hscoped⟩
  | statement hst =>
    rw [Task.statement?_eq_none hes] at hst
    cases hst
  | call | callFunction => cases hes

theorem Suited.of_statement {H : History} {running : Option Closure} {t : Sigma Task} {st : Stmt}
    {M : Machine} (h : Suited H running t M) (hst : t.2.statement? = some st) :
    ∃ ctx inside, M.At H running ctx ∧ st.Scoped anyName inside ctx := by
  cases h with
  | expressions hes =>
    rw [Task.statement?_eq_none hes] at hst
    cases hst
  | statement hst' hM hscoped =>
    obtain rfl := Option.some.inj (hst'.symm.trans hst)
    exact ⟨_, _, hM, hscoped⟩
  | call | callFunction => cases hst

end Task

/-! ## Scripts -/

/-- A history tells of whatever is asked for by the tasks that it tells of. -/
def History.Closed (H : History) (host : Host) : Prop :=
  ∀ nesting running t M t' M', H (nesting + 1) running t M →
    (t.2.script host).Asks (Task.run host nesting) M t' M' →
      H nesting (t.2.function?.or running) t' M'

namespace Script

variable {α β : Type} {H : History} {host : Host} {nesting : Nat} {running : Option Closure}
  {M : Machine}

/-- Whatever a script asks for is asked for at a place that fits and comes to its end before the
script does, and however the script ends, everything fits. -/
def Upholds (H : History) (host : Host) (nesting : Nat) (running : Option Closure) (s : Script α)
    (M : Machine) (post : α → Store Value → Prop) : Prop :=
  (∀ t M', s.Asks (Task.run host nesting) M t M' → H nesting running t M') →
    (∀ t M', s.Asks (Task.run host nesting) M t M' → Task.Suited H running t M' ∧
      ((t.2.run host nesting).last M').frames.Precedes
        ((s.run (Task.run host nesting)).last M).frames) ∧
    (s.run (Task.run host nesting)).Upholds H M post

namespace Upholds

variable {post : α → Store Value → Prop}

theorem pure {a : α} (hM : M.Fits H) (h : post a M.frames) :
    Upholds H host nesting running (Pure.pure a : Script α) M post :=
  fun _ ↦ ⟨fun _ _ h ↦ h.elim, .pure hM h⟩

theorem perform {p : Eval α} (h : p.Upholds H M post) :
    Upholds H host nesting running (perform p) M post := by
  refine fun _ ↦ ⟨?_, by rwa [run_perform]⟩
  rintro t M' ⟨_, _, _, h⟩
  exact h.elim

theorem answer {t : Task α} (ht : Task.Suited H running ⟨_, t⟩ M)
    (h : H nesting running ⟨_, t⟩ M → (t.run host nesting).Upholds H M post) :
    Upholds H host nesting running (answer t) M post := by
  refine fun hH ↦ ⟨?_, by
    rw [run_answer]
    exact h (hH _ _ (.inl ⟨rfl, rfl⟩))⟩
  rintro t' M' (⟨rfl, rfl⟩ | ⟨_, _, _, h⟩)
  · rw [run_answer]
    exact ⟨ht, .refl _⟩
  · exact h.elim

theorem bind {s : Script α} {f : α → Script β} {P : α → Store Value → Prop}
    {Q : β → Store Value → Prop} (hs : Upholds H host nesting running s M P)
    (hf : ∀ a M₁, M.LeadsTo H M₁ → P a M₁.frames →
      Upholds H host nesting running (f a) M₁ Q) :
    Upholds H host nesting running (s >>= f) M Q := by
  intro hH
  obtain ⟨hasks, hends⟩ := hs fun t M' h ↦ hH t M' (asks_bind_of (.inl h))
  have hrest : ∀ {a M₁}, s.run (Task.run host nesting) M = .ok a M₁ → _ := fun {a M₁} ha ↦
    hf a M₁ (hends.of_ok ha).1 (hends.of_ok ha).2
      fun t M' h ↦ hH t M' (asks_bind_of (.inr ⟨a, M₁, ha, h⟩))
  refine ⟨fun t M' h ↦ ?_, ?_⟩
  · rw [run_bind]
    obtain h | ⟨a, M₁, ha, h⟩ := asks_bind h
    · obtain ⟨ht, hlast⟩ := hasks t M' h
      refine ⟨ht, hlast.trans ?_⟩
      -- The rest of the script goes on from where the first part ends, if it goes on at all.
      cases hrun : s.run (Task.run host nesting) M with
      | ok a M₁ =>
        rw [Eval.last_of_ok hrun, Eval.last_bind_of_ok hrun]
        exact (hrest hrun).2.leadsTo_last.frames
      | error i M₁ =>
        rw [Eval.last_of_error hrun, Eval.last_of_error (bind_of_error hrun)]
        exact .refl _
    · rw [Eval.last_bind_of_ok ha]
      exact (hrest ha).1 t M' h
  · rw [run_bind]
    exact hends.andThen fun _ _ ha ↦ (hrest ha).2

theorem get_bind {f : Machine → Script β} {Q : β → Store Value → Prop}
    (h : Upholds H host nesting running (f M) M Q) :
    Upholds H host nesting running (Script.perform MonadState.get >>= f) M Q := by
  intro hH
  obtain ⟨hasks, hends⟩ := h fun t M' h ↦ hH t M' ⟨M, M, rfl, h⟩
  refine ⟨?_, hends⟩
  rintro t M' ⟨_, _, hget, h⟩
  cases hget
  exact hasks t M' h

/-- The environment that was current before is current again, and only in between it was another.
-/
theorem enclose {env : Environment} {s : Script α}
    (hs : Upholds H host nesting running s { M with current := env } post) :
    Upholds H host nesting running (enclose env s) M post := by
  have hrestored : ∀ {M' : Machine}, ({ M with current := env } : Machine).LeadsTo H M' →
      M.LeadsTo H { M' with current := M.current } :=
    fun h ↦ ⟨⟨h.fits.frames, h.fits.objects⟩, rfl, h.frames⟩
  intro hH
  obtain ⟨hasks, hends⟩ := hs fun t M' h ↦ hH t M' (.inl h)
  refine ⟨?_, ?_⟩
  · rintro t M' (h | ⟨_, _, _, h⟩)
    · rw [run_enclose, Eval.last_within]
      exact hasks t M' h
    · exact h.elim
  · rw [run_enclose]
    exact Eval.ends_within (Ends.mono hends (fun _ _ h ↦ h.imp_left hrestored)
      fun _ _ h ↦ h.imp_left hrestored)

/-- A value that is returned becomes the value of the call. -/
theorem body {s : Script Unit} (hs : Upholds H host nesting running s M fun _ _ ↦ True) :
    Upholds H host nesting running (body s) M fun v s ↦ v.Fits H s := by
  intro hH
  obtain ⟨hasks, hends⟩ := hs fun t M' h ↦ hH t M' (.inl h)
  refine ⟨?_, ?_⟩
  · rintro t M' (h | ⟨_, _, _, h⟩)
    · rw [run_body, Eval.last_catchReturn]
      exact hasks t M' h
    · exact h.elim
  · rw [run_body]
    refine Eval.ends_catchReturn (Ends.mono hends (fun _ _ h ↦ ⟨h.1, trivial⟩)
      fun i M' h ↦ ⟨?_, fun _ ↦ h⟩)
    rintro v rfl
    exact h

theorem each {ι : Type} {f : ι → Script Value} {items : List ι} (hM : M.Fits H)
    (hf : ∀ i ∈ items, ∀ M', M.LeadsTo H M' →
      Upholds H host nesting running (f i) M' fun v s ↦ v.Fits H s) :
    Upholds H host nesting running (each f items) M fun vs s ↦ ∀ v ∈ vs, v.Fits H s := by
  induction items generalizing M with
  | nil => exact pure hM (List.forall_mem_nil _)
  | cons i items ih =>
    rw [List.forall_mem_cons] at hf
    refine bind (hf.1 M hM.leadsTo) fun v M₁ hM₁ hv ↦
      bind (ih hM₁.fits fun j hj M' hM' ↦ hf.2 j hj M' (hM₁.trans hM')) fun vs M₂ hM₂ hvs ↦ ?_
    exact pure hM₂.fits (List.forall_mem_cons.mpr ⟨hv.mono hM₂.frames, hvs⟩)

theorem repeatWhile {round : Script Bool} (hM : M.Fits H)
    (hround : ∀ M', M.LeadsTo H M' → Upholds H host nesting running round M' fun _ _ ↦ True)
    (rounds : Nat) :
    Upholds H host nesting running (repeatWhile round rounds) M fun _ _ ↦ True := by
  induction rounds generalizing M with
  | zero => exact perform (.throw hM trivial)
  | succ rounds ih =>
    refine bind (hround M hM.leadsTo) fun b M₁ hM₁ _ ↦ ?_
    cases b with
    | true => exact ih hM₁.fits fun M' hM' ↦ hround M' (hM₁.trans hM')
    | false => exact pure hM₁.fits trivial

end Upholds

end Script

end Lox
