import Lox.Proofs.Outcome

/-!
# Computations that mirror each other

One computation mirrors another one if from the image of a state it always does the image of what
the other one does from that state: it returns the image of what the other one returns, or is
stopped by the image of what stops the other one, and leaves the image of the state. What the images
are depends on what the computations are to be compared for. There is one rule for each way of
putting computations together.
-/

namespace Lox

variable {ε ε' σ σ' α α' β β' : Type}

/-- The image of how a computation ends. -/
def carried (onState : σ → σ') (onFailure : ε → ε') (g : α → α') :
    EStateM.Result ε σ α → EStateM.Result ε' σ' α'
  | .ok a s => .ok (g a) (onState s)
  | .error e s => .error (onFailure e) (onState s)

/-- The second computation does from the image of each state the image of what the first one does
from the state. -/
def Mirrors (onState : σ → σ') (onFailure : ε → ε') (g : α → α') (p : EStateM ε σ α)
    (q : EStateM ε' σ' α') : Prop := ∀ s, q (onState s) = carried onState onFailure g (p s)

namespace Mirrors

variable {onState : σ → σ'} {onFailure : ε → ε'} {g : α → α'} {k : β → β'}
  {p : EStateM ε σ α} {q : EStateM ε' σ' α'}

theorem of_ok {s s' : σ} {a : α} (h : Mirrors onState onFailure g p q) (hp : p s = .ok a s') :
    q (onState s) = .ok (g a) (onState s') := by
  rw [h s, hp, carried]

theorem of_error {s s' : σ} {e : ε} (h : Mirrors onState onFailure g p q)
    (hp : p s = .error e s') : q (onState s) = .error (onFailure e) (onState s') := by
  rw [h s, hp, carried]

theorem pure {a : α} {a' : α'} (h : g a = a') :
    Mirrors onState onFailure g (Pure.pure a) (Pure.pure a') := by
  intro s
  rw [← h]
  rfl

theorem throw {e : ε} {e' : ε'} (h : onFailure e = e') :
    Mirrors onState onFailure g (MonadExcept.throw e) (MonadExcept.throw e') := by
  intro s
  rw [← h]
  rfl

theorem bind {f : α → EStateM ε σ β} {f' : α' → EStateM ε' σ' β'}
    (hp : Mirrors onState onFailure g p q)
    (hf : ∀ a, Mirrors onState onFailure k (f a) (f' (g a))) :
    Mirrors onState onFailure k (p >>= f) (q >>= f') := by
  intro s
  cases hrun : p s with
  | ok a s₁ => rw [bind_of_ok hrun, bind_of_ok (hp.of_ok hrun), hf a]
  | error e s₁ => rw [bind_of_error hrun, bind_of_error (hp.of_error hrun), carried]

theorem map {f : α → β} {f' : α' → β'} (hp : Mirrors onState onFailure g p q)
    (hf : ∀ a, k (f a) = f' (g a)) : Mirrors onState onFailure k (f <$> p) (f' <$> q) := by
  rw [← bind_pure_comp, ← bind_pure_comp]
  exact hp.bind fun a ↦ pure (hf a)

theorem get : Mirrors onState onFailure onState (MonadState.get : EStateM ε σ σ)
    (MonadState.get : EStateM ε' σ' σ') := fun _ ↦ rfl

theorem modify {f : σ → σ} {f' : σ' → σ'} {k : PUnit → PUnit}
    (h : ∀ s, f' (onState s) = onState (f s)) :
    Mirrors onState onFailure k (modify f : EStateM ε σ PUnit) (modify f' : EStateM ε' σ' PUnit) :=
  fun s ↦ (congrArg (EStateM.Result.ok PUnit.unit) (h s) : _)

theorem modifyGet {f : σ → α × σ} {f' : σ' → α' × σ'}
    (h : ∀ s, f' (onState s) = (g (f s).1, onState (f s).2)) :
    Mirrors onState onFailure g (modifyGet f : EStateM ε σ α) (modifyGet f' : EStateM ε' σ' α') :=
  fun s ↦ congrArg (fun r : α' × σ' ↦ EStateM.Result.ok r.1 r.2) (h s)

section Rows

variable {ι ι' : Type} {r : ι → ι'}

theorem forM {f : ι → EStateM ε σ PUnit} {f' : ι' → EStateM ε' σ' PUnit} {items : List ι}
    (hf : ∀ i ∈ items, Mirrors onState onFailure id (f i) (f' (r i))) :
    Mirrors onState onFailure id (items.forM f) ((items.map r).forM f') := by
  induction items with
  | nil => exact pure rfl
  | cons i items ih =>
    rw [List.forall_mem_cons] at hf
    exact hf.1.bind fun _ ↦ ih hf.2

theorem mapM {f : ι → EStateM ε σ α} {f' : ι' → EStateM ε' σ' α'} {items : List ι}
    (hf : ∀ i ∈ items, Mirrors onState onFailure g (f i) (f' (r i))) :
    Mirrors onState onFailure (List.map g) (items.mapM f) ((items.map r).mapM f') := by
  induction items with
  | nil => exact pure rfl
  | cons i items ih =>
    rw [List.forall_mem_cons] at hf
    rw [List.map_cons, List.mapM_cons, List.mapM_cons]
    exact hf.1.bind fun a ↦ (ih hf.2).bind fun _ ↦ pure rfl

end Rows

end Mirrors

end Lox
