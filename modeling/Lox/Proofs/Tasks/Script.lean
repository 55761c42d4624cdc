import Lox.Evaluation
import Lox.Proofs.Outcome

/-!
# Scripts

The functions of the evaluator call each other. A task is one such call. To speak of the tasks that
come up while a program runs, and of the states of the machine in which they do, each function is
written as a script: a program that says which tasks it needs to have done, and goes on with their
answers. A script runs once somebody answers the tasks.

What is needed of a run is mostly an invariant: whenever a script asks for a task, the machine is in
a state in which that task may be begun. `Heeds` says so, and has one rule for each way of putting
scripts together.
-/

namespace Lox

/-- A call of one of the functions of the evaluator, by what it is made for. -/
inductive Task : Type → Type where
  | evaluate (e : Expr) : Task Value
  | binary (left : Expr) (operator : Token) (right : Expr) : Task Value
  | assignment (target : Reference) (value : Expr) : Task Value
  | propertyAssignment (object : Expr) (name : Token) (value : Expr) : Task Value
  | invocation (callee : Expr) (paren : Token) (arguments : List Expr) : Task Value
  | arguments (items : List Expr) : Task (List Value)
  | call (callee : Value) (arguments : List Value) : Task Value
  | callFunction (f : Closure) (arguments : List Value) : Task Value
  | execute (st : Stmt) : Task Unit
  | block (body : List Stmt) : Task Unit
  | forLoop (initializer : Option Stmt) (condition increment : Option Expr) (body : Stmt) :
    Task Unit

/-- A way to do tasks. -/
abbrev Answers := {α : Type} → Task α → Eval α

/-- A program that needs tasks to be done. -/
inductive Script : Type → Type 1 where
  | done {α : Type} (a : α) : Script α
  | act {α β : Type} (p : Eval β) (next : β → Script α) : Script α
  | ask {α β : Type} (t : Task β) (next : β → Script α) : Script α
  | within {α β : Type} (env : Environment) (inner : Script β) (next : β → Script α) : Script α
  | catchReturn {α : Type} (inner : Script Unit) (next : Value → Script α) : Script α

namespace Script

variable {α β : Type} {M M' : Machine}

def bind : Script α → (α → Script β) → Script β
  | done a, f => f a
  | act p next, f => act p fun b ↦ (next b).bind f
  | ask t next, f => ask t fun a ↦ (next a).bind f
  | within env inner next, f => within env inner fun b ↦ (next b).bind f
  | catchReturn inner next, f => catchReturn inner fun v ↦ (next v).bind f

instance : Monad Script where
  pure := done
  bind := bind

/-- The machine does something. -/
def perform (p : Eval α) : Script α := act p done

/-- A task is done. -/
def answer (t : Task α) : Script α := ask t done

/-- Something is done in another environment. -/
def enclose (env : Environment) (s : Script α) : Script α := within env s done

/-- Something is done as the body of a function. -/
def body (s : Script Unit) : Script Value := catchReturn s done

/-! ## Loops -/

/-- Repeats a round for as long as it asks for another one. -/
def repeatWhile (round : Script Bool) : Nat → Script Unit
  | 0 => perform (throw .exhausted)
  | rounds + 1 => do
    if ← round then repeatWhile round rounds

/-- Deals with items one after the other. -/
def each {ι : Type} (f : ι → Script α) : List ι → Script (List α)
  | [] => return []
  | i :: rest => return (← f i) :: (← each f rest)

/-! ## Running -/

/-- Runs a script. -/
def run (answers : Answers) : {α : Type} → Script α → Eval α
  | _, done a => pure a
  | _, act p next => p >>= fun b ↦ (next b).run answers
  | _, ask t next => answers t >>= fun a ↦ (next a).run answers
  | _, within env inner next =>
    Eval.within env (inner.run answers) >>= fun b ↦ (next b).run answers
  | _, catchReturn inner next =>
    Eval.catchReturn (inner.run answers) >>= fun v ↦ (next v).run answers

variable {answers : Answers}

theorem run_pure (a : α) : (pure a : Script α).run answers = pure a := rfl

theorem run_bind (s : Script α) (f : α → Script β) :
    (s >>= f).run answers = s.run answers >>= fun a ↦ (f a).run answers := by
  change (s.bind f).run answers = _
  induction s with
  | done a => rw [bind, run, pure_bind]
  | act p next ih | ask t next ih | within env inner next _ ih | catchReturn inner next _ ih =>
    rw [bind, run, run, bind_assoc]
    exact congrArg _ (funext fun a ↦ ih a f)

theorem run_perform (p : Eval α) : (perform p).run answers = p := bind_pure p

theorem run_answer (t : Task α) : (answer t).run answers = answers t := bind_pure _

theorem run_enclose (env : Environment) (s : Script α) :
    (enclose env s).run answers = Eval.within env (s.run answers) := bind_pure _

theorem run_body (s : Script Unit) : (body s).run answers = Eval.catchReturn (s.run answers) :=
  bind_pure _

theorem run_repeatWhile (round : Script Bool) (rounds : Nat) :
    (repeatWhile round rounds).run answers = Eval.repeatWhile (round.run answers) rounds := by
  induction rounds with
  | zero => exact run_perform _
  | succ rounds ih =>
    rw [repeatWhile, Eval.repeatWhile, run_bind]
    refine congrArg _ (funext fun b ↦ ?_)
    cases b with
    | true => exact ih
    | false => rfl

theorem run_each {ι : Type} (f : ι → Script α) (items : List ι) :
    (each f items).run answers = items.mapM fun i ↦ (f i).run answers := by
  induction items with
  | nil => rfl
  | cons i items ih =>
    rw [each, List.mapM_cons, run_bind]
    refine congrArg _ (funext fun a ↦ ?_)
    rw [run_bind, ih]
    rfl

theorem run_forM {ι : Type} (f : ι → Script Unit) (items : List ι) :
    (items.forM f).run answers = items.forM fun i ↦ (f i).run answers := by
  induction items with
  | nil => rfl
  | cons i items ih =>
    change (f i >>= fun _ ↦ items.forM f).run answers = _
    rw [run_bind]
    exact congrArg _ (funext fun _ ↦ ih)

/-! ## Asking for tasks -/

/-- While a script runs from a state, it asks for a task in another state. -/
def Asks (answers : Answers) : {α : Type} → Script α → Machine → Sigma Task → Machine → Prop
  | _, done _, _, _, _ => False
  | _, act p next, M, t', M' => ∃ b M₁, p M = .ok b M₁ ∧ (next b).Asks answers M₁ t' M'
  | _, ask t next, M, t', M' =>
    (t' = ⟨_, t⟩ ∧ M' = M) ∨ ∃ a M₁, answers t M = .ok a M₁ ∧ (next a).Asks answers M₁ t' M'
  | _, within env inner next, M, t', M' =>
    inner.Asks answers { M with current := env } t' M' ∨
      ∃ b M₁, Eval.within env (inner.run answers) M = .ok b M₁ ∧ (next b).Asks answers M₁ t' M'
  | _, catchReturn inner next, M, t', M' => inner.Asks answers M t' M' ∨
      ∃ v M₁, Eval.catchReturn (inner.run answers) M = .ok v M₁ ∧ (next v).Asks answers M₁ t' M'

/-- From a state on, whatever a script asks for is asked for in a right state, and `post` holds of
what it returns. -/
structure Heeds (answers : Answers) (right : Sigma Task → Machine → Prop) (s : Script α)
    (M : Machine)
    (post : α → Machine → Prop) : Prop where
  asks : ∀ t' M', s.Asks answers M t' M' → right t' M'
  returns : ∀ a M', s.run answers M = .ok a M' → post a M'

theorem asks_bind {t' : Sigma Task} {s : Script α} {f : α → Script β}
    (h : (s >>= f).Asks answers M t' M') :
    s.Asks answers M t' M' ∨ ∃ a M₁, s.run answers M = .ok a M₁ ∧ (f a).Asks answers M₁ t' M' := by
  change (s.bind f).Asks answers M t' M' at h
  induction s generalizing M with
  | done a => exact .inr ⟨a, M, rfl, h⟩
  | act p next ih =>
    obtain ⟨b, M₁, hp, h⟩ := h
    exact (ih b h).imp (fun h ↦ ⟨b, M₁, hp, h⟩)
      fun ⟨a, M₂, hrun, h⟩ ↦ ⟨a, M₂, (bind_of_ok hp).trans hrun, h⟩
  | ask t next ih =>
    obtain h | ⟨b, M₁, hp, h⟩ := h
    · exact .inl (.inl h)
    · exact (ih b h).imp (fun h ↦ .inr ⟨b, M₁, hp, h⟩)
        fun ⟨a, M₂, hrun, h⟩ ↦ ⟨a, M₂, (bind_of_ok hp).trans hrun, h⟩
  | within env inner next _ ih | catchReturn inner next _ ih =>
    obtain h | ⟨b, M₁, hp, h⟩ := h
    · exact .inl (.inl h)
    · exact (ih b h).imp (fun h ↦ .inr ⟨b, M₁, hp, h⟩)
        fun ⟨a, M₂, hrun, h⟩ ↦ ⟨a, M₂, (bind_of_ok hp).trans hrun, h⟩

theorem asks_bind_of {t' : Sigma Task} {s : Script α} {f : α → Script β}
    (h : s.Asks answers M t' M' ∨
      ∃ a M₁, s.run answers M = .ok a M₁ ∧ (f a).Asks answers M₁ t' M') :
    (s >>= f).Asks answers M t' M' := by
  change (s.bind f).Asks answers M t' M'
  induction s generalizing M with
  | done a =>
    obtain h | ⟨_, _, hrun, h⟩ := h
    · exact h.elim
    · cases hrun
      exact h
  | act p next ih =>
    obtain ⟨b, M₁, hp, h⟩ | ⟨a, M₂, hrun, h⟩ := h
    · exact ⟨b, M₁, hp, ih b (.inl h)⟩
    · obtain ⟨b, M₁, hp, hnext⟩ := bind_eq_ok hrun
      exact ⟨b, M₁, hp, ih b (.inr ⟨a, M₂, hnext, h⟩)⟩
  | ask t next ih | within env inner next _ ih | catchReturn inner next _ ih =>
    obtain (h | ⟨b, M₁, hp, h⟩) | ⟨a, M₂, hrun, h⟩ := h
    · exact .inl h
    · exact .inr ⟨b, M₁, hp, ih b (.inl h)⟩
    · obtain ⟨b, M₁, hp, hnext⟩ := bind_eq_ok hrun
      exact .inr ⟨b, M₁, hp, ih b (.inr ⟨a, M₂, hnext, h⟩)⟩

namespace Heeds

variable {right : Sigma Task → Machine → Prop} {post post' : α → Machine → Prop}

theorem mono {s : Script α} (h : Heeds answers right s M post)
    (hpost : ∀ a M', post a M' → post' a M') : Heeds answers right s M post' :=
  ⟨h.asks, fun a M' hrun ↦ hpost a M' (h.returns a M' hrun)⟩

theorem pure {a : α} (h : post a M) : Heeds answers right (Pure.pure a : Script α) M post := by
  refine ⟨fun _ _ h ↦ h.elim, fun b M' hrun ↦ ?_⟩
  cases hrun
  exact h

theorem perform {p : Eval α} (h : ∀ a M', p M = .ok a M' → post a M') :
    Heeds answers right (perform p) M post := by
  refine ⟨?_, fun a M' hrun ↦ h a M' (by rwa [run_perform] at hrun)⟩
  rintro t' M' ⟨_, _, _, h⟩
  exact h.elim

theorem answer {t : Task α} (ht : right ⟨α, t⟩ M) (h : ∀ a M', answers t M = .ok a M' → post a M') :
    Heeds answers right (answer t) M post := by
  refine ⟨?_, fun a M' hrun ↦ h a M' (by rwa [run_answer] at hrun)⟩
  rintro t' M' (⟨rfl, rfl⟩ | ⟨_, _, _, h⟩)
  · exact ht
  · exact h.elim

theorem bind {s : Script α} {f : α → Script β} {P : α → Machine → Prop} {Q : β → Machine → Prop}
    (hs : Heeds answers right s M P) (hf : ∀ a M₁, P a M₁ → Heeds answers right (f a) M₁ Q) :
    Heeds answers right (s >>= f) M Q := by
  refine ⟨fun t' M' h ↦ ?_, fun b M' hrun ↦ ?_⟩
  · obtain h | ⟨a, M₁, ha, h⟩ := asks_bind h
    · exact hs.asks t' M' h
    · exact (hf a M₁ (hs.returns a M₁ ha)).asks t' M' h
  · rw [run_bind] at hrun
    obtain ⟨a, M₁, ha, hb⟩ := bind_eq_ok hrun
    exact (hf a M₁ (hs.returns a M₁ ha)).returns b M' hb

theorem enclose {env : Environment} {s : Script α}
    (hs : Heeds answers right s { M with current := env } fun a M' ↦
      post a { M' with current := M.current }) :
    Heeds answers right (enclose env s) M post := by
  refine ⟨?_, fun a M' hrun ↦ ?_⟩
  · rintro t' M' (h | ⟨_, _, _, h⟩)
    · exact hs.asks t' M' h
    · exact h.elim
  · rw [run_enclose, Eval.within] at hrun
    cases hbody : s.run answers { M with current := env } with
    | ok b M₁ =>
      rw [hbody] at hrun
      cases hrun
      exact hs.returns a M₁ hbody
    | error i M₁ =>
      rw [hbody] at hrun
      cases hrun

/-- What is known of the value of a body is known from elsewhere: the body may well return early. -/
theorem body {s : Script Unit} {P : Unit → Machine → Prop} {post : Value → Machine → Prop}
    (hs : Heeds answers right s M P)
    (h : ∀ v M', Eval.catchReturn (s.run answers) M = .ok v M' → post v M') :
    Heeds answers right (body s) M post := by
  refine ⟨?_, fun v M' hrun ↦ h v M' (by rwa [run_body] at hrun)⟩
  rintro t' M' (h | ⟨_, _, _, h⟩)
  · exact hs.asks t' M' h
  · exact h.elim

/-- An invariant of the items that are left and of the machine. -/
theorem forM {ι : Type} {f : ι → Script Unit} {I : List ι → Machine → Prop} {items : List ι}
    (hf : ∀ i rest M, I (i :: rest) M → Heeds answers right (f i) M fun _ M₁ ↦ I rest M₁)
    (hM : I items M) : Heeds answers right (items.forM f) M fun _ M₁ ↦ I [] M₁ := by
  induction items generalizing M with
  | nil => exact pure hM
  | cons i items ih => exact bind (hf i items M hM) fun _ M₁ h ↦ ih h

/-- An invariant of the machine and of the answers so far. -/
theorem each {ι : Type} {f : ι → Script α} {I : Machine → Prop} {items : List ι}
    (hf : ∀ i ∈ items, ∀ M, I M → Heeds answers right (f i) M fun _ M₁ ↦ I M₁) (hM : I M) :
    Heeds answers right (each f items) M fun _ M₁ ↦ I M₁ := by
  induction items generalizing M with
  | nil => exact pure hM
  | cons i items ih =>
    rw [List.forall_mem_cons] at hf
    exact bind (hf.1 M hM) fun a M₁ h ↦ bind (ih hf.2 h) fun _ _ h' ↦ pure h'

theorem repeatWhile {round : Script Bool} {I : Machine → Prop}
    (hround : ∀ M, I M → Heeds answers right round M fun _ M₁ ↦ I M₁) (rounds : Nat) (hM : I M) :
    Heeds answers right (repeatWhile round rounds) M fun _ M₁ ↦ I M₁ := by
  induction rounds generalizing M with
  | zero => exact perform fun _ _ h ↦ by cases h
  | succ rounds ih =>
    refine bind (hround M hM) fun b M₁ h ↦ ?_
    cases b with
    | true => exact ih h
    | false => exact pure h

end Heeds

end Script

end Lox
