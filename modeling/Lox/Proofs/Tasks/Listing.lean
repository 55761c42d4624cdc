import Lox.Proofs.Tasks.Chain

/-!
# Listing the tasks of a run

What is known of all tasks that come up while a script runs is known by induction. Here they are
computed, by running the script: `asked` lists the tasks that a script asks for itself, and `chains`
the chains of tasks with a number of nested calls. So it can be decided whether a run gets to some
moment.
-/

namespace Lox

namespace Script

variable {α β : Type} {γ : Type 1} {answers : Answers}

/-- A list of what there is behind an action. There is nothing if the action fails. -/
def behind (outcome : EStateM.Result Interrupt Machine β) (list : β → Machine → List γ) : List γ :=
  match outcome with
  | .ok b M => list b M
  | .error _ _ => []

theorem mem_behind {outcome : EStateM.Result Interrupt Machine β} {list : β → Machine → List γ}
    {c : γ} : c ∈ behind outcome list ↔ ∃ b M, outcome = .ok b M ∧ c ∈ list b M := by
  constructor
  · intro h
    cases outcome with
    | ok b M => exact ⟨b, M, rfl, h⟩
    | error => cases h
  · rintro ⟨b, M, rfl, h⟩
    exact h

@[simp] theorem behind_ok (b : β) (M : Machine) (list : β → Machine → List γ) :
    behind (.ok b M) list = list b M := rfl

theorem behind_nil (outcome : EStateM.Result Interrupt Machine β) :
    (behind outcome fun _ _ ↦ ([] : List γ)) = [] := by
  cases outcome <;> rfl

/-- What is behind two actions is behind the second one. -/
theorem behind_bind (p : Eval α) (q : α → Eval β) (list : β → Machine → List γ) (M : Machine) :
    behind ((p >>= q) M) list = behind (p M) fun a M₁ ↦ behind (q a M₁) list := by
  change behind (EStateM.bind p q M) list = _
  rw [EStateM.bind]
  cases p M <;> rfl

theorem behind_append (outcome : EStateM.Result Interrupt Machine β)
    (list list' : β → Machine → List γ) :
    (behind outcome fun b M ↦ list b M ++ list' b M)
      = behind outcome list ++ behind outcome list' := by
  cases outcome <;> rfl

/-- The tasks that a script asks for, one after the other. -/
def asked (answers : Answers) : {α : Type} → Script α → Machine → List Begun
  | _, done _, _ => []
  | _, act p next, M => behind (p M) fun b M₁ ↦ (next b).asked answers M₁
  | _, ask t next, M => (⟨_, t⟩, M) :: behind (answers t M) fun a M₁ ↦ (next a).asked answers M₁
  | _, within env inner next, M =>
    inner.asked answers { M with current := env } ++
      behind (Eval.within env (inner.run answers) M) fun b M₁ ↦ (next b).asked answers M₁
  | _, catchReturn inner next, M =>
    inner.asked answers M ++
      behind (Eval.catchReturn (inner.run answers) M) fun v M₁ ↦ (next v).asked answers M₁

@[simp] theorem asked_pure (a : α) (M : Machine) :
    (pure a : Script α).asked answers M = [] := rfl

@[simp] theorem asked_perform (p : Eval α) (M : Machine) : (perform p).asked answers M = [] :=
  behind_nil _

@[simp] theorem asked_answer (t : Task α) (M : Machine) :
    (answer t).asked answers M = [(⟨α, t⟩, M)] := congrArg _ (behind_nil _)

@[simp] theorem asked_enclose (env : Environment) (s : Script α) (M : Machine) :
    (enclose env s).asked answers M = s.asked answers { M with current := env } :=
  (congrArg _ (behind_nil _)).trans (List.append_nil _)

@[simp] theorem asked_body (s : Script Unit) (M : Machine) :
    (body s).asked answers M = s.asked answers M :=
  (congrArg _ (behind_nil _)).trans (List.append_nil _)

theorem asked_bind (s : Script α) (f : α → Script β) (M : Machine) : (s >>= f).asked answers M
    = s.asked answers M ++ behind (s.run answers M) fun a M₁ ↦ (f a).asked answers M₁ := by
  change (s.bind f).asked answers M = _
  induction s generalizing M with
  | done a => rfl
  | act p next ih =>
    simp only [bind, asked, run, ih, behind_append, behind_bind]
  | ask t next ih | within env inner next _ ih | catchReturn inner next _ ih =>
    simp only [bind, asked, run, ih, behind_append, behind_bind, List.cons_append,
      List.append_assoc]

theorem mem_asked {s : Script α} {M M' : Machine} {t : Sigma Task} :
    (t, M') ∈ s.asked answers M ↔ s.Asks answers M t M' := by
  induction s generalizing M with
  | done a => simp only [asked, Asks, List.not_mem_nil]
  | act p next ih => simp only [asked, Asks, mem_behind, ih]
  | ask u next ih => simp only [asked, Asks, List.mem_cons, Prod.mk.injEq, mem_behind, ih]
  | within env inner next ihinner ih | catchReturn inner next ihinner ih =>
    simp only [asked, Asks, List.mem_append, mem_behind, ihinner, ih]

end Script

variable {host : Host} {α : Type} {s : Script α} {M : Machine} {nesting : Nat} {chain : List Begun}

/-- The chains of tasks that come up while a script runs, with a number of nested calls. -/
def chains (host : Host) (s : Script α) (M : Machine) : Nat → List (List Begun)
  | 0 => (s.asked (Task.run host host.nesting) M).map fun b ↦ [b]
  | made + 1 => (chains host s M made).flatMap fun
    | [] => []
    | b :: outer =>
      ((b.1.2.script host).asked (Task.run host (host.nesting - (made + 1))) b.2).map
        fun inner ↦ inner :: b :: outer

theorem Doing.nesting_le (h : Doing host s M nesting chain) : nesting ≤ host.nesting := by
  induction h with
  | outermost => exact Nat.le_refl _
  | inner _ _ ih => exact Nat.le_of_succ_le ih

/-- The chains that are listed are those that come up. -/
theorem mem_chains {made : Nat} (hmade : made + nesting = host.nesting) :
    chain ∈ chains host s M made ↔ Doing host s M nesting chain := by
  constructor
  · intro h
    induction made generalizing nesting chain with
    | zero =>
      obtain rfl : nesting = host.nesting := by omega
      obtain ⟨⟨t, M'⟩, hasked, rfl⟩ := List.mem_map.mp h
      exact .outermost (Script.mem_asked.mp hasked)
    | succ made ih =>
      obtain ⟨outer, houter, h⟩ := List.mem_flatMap.mp h
      rw [show host.nesting - (made + 1) = nesting by omega] at h
      cases outer with
      | nil => cases h
      | cons b outer =>
        obtain ⟨⟨t, M'⟩, hasked, rfl⟩ := List.mem_map.mp h
        exact .inner (ih (by omega) houter) (Script.mem_asked.mp hasked)
  · intro h
    induction h generalizing made with
    | outermost hasks =>
      obtain rfl : made = 0 := by omega
      exact List.mem_map_of_mem (Script.mem_asked.mpr hasks)
    | @inner nesting b outer _ _ hdoing hasks ih =>
      obtain ⟨made, rfl⟩ : ∃ n, made = n + 1 :=
        Nat.exists_eq_add_one.mpr (by have := hdoing.nesting_le; omega)
      refine List.mem_flatMap.mpr ⟨b :: outer, ih (by omega), ?_⟩
      rw [show host.nesting - (made + 1) = nesting by omega]
      exact List.mem_map_of_mem (Script.mem_asked.mpr hasks)

end Lox
