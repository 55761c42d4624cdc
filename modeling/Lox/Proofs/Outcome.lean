import Mathlib.Tactic.Basic

/-!
# Outcomes

The parser, the resolver and the evaluator all run in a state that outlives a failure. So what is
known about a computation has two halves: what holds when it returns, and what holds when it stops
early. `Ends` states both at once, and has one rule for each way of putting computations together.
The half about failures is passed along unchanged, so an invariant is stated once and both halves
carry it.
-/

namespace Lox

variable {ε σ α β : Type}

theorem bind_of_ok {p : EStateM ε σ α} {f : α → EStateM ε σ β} {s s' : σ} {a : α}
    (h : p s = .ok a s') : (p >>= f) s = f a s' := by
  simp only [bind, EStateM.bind, h]

theorem bind_of_error {p : EStateM ε σ α} {f : α → EStateM ε σ β} {s s' : σ} {e : ε}
    (h : p s = .error e s') : (p >>= f) s = .error e s' := by
  simp only [bind, EStateM.bind, h]

theorem map_of_ok {p : EStateM ε σ α} {g : α → β} {s s' : σ} {a : α} (h : p s = .ok a s') :
    (g <$> p) s = .ok (g a) s' := by
  rw [← bind_pure_comp, bind_of_ok h]
  rfl

theorem bind_eq_ok {p : EStateM ε σ α} {f : α → EStateM ε σ β} {s s' : σ} {b : β}
    (h : (p >>= f) s = .ok b s') : ∃ a s₁, p s = .ok a s₁ ∧ f a s₁ = .ok b s' := by
  cases hp : p s with
  | ok a s₁ =>
    rw [bind_of_ok hp] at h
    exact ⟨a, s₁, rfl, h⟩
  | error e s₁ =>
    rw [bind_of_error hp] at h
    cases h

/-- However a computation ends that starts in a state: `ok` holds of what it returns, or `failed` of
what stops it. -/
def Ends (p : EStateM ε σ α) (s : σ) (ok : α → σ → Prop) (failed : ε → σ → Prop) : Prop :=
  match p s with
  | .ok a s' => ok a s'
  | .error e s' => failed e s'

namespace Ends

variable {p : EStateM ε σ α} {f : α → EStateM ε σ β} {s s' : σ}
  {ok ok' : α → σ → Prop} {failed failed' : ε → σ → Prop}

theorem of_ok {a : α} (h : Ends p s ok failed) (hp : p s = .ok a s') : ok a s' := by
  rw [Ends, hp] at h
  exact h

theorem of_error {e : ε} (h : Ends p s ok failed) (hp : p s = .error e s') : failed e s' := by
  rw [Ends, hp] at h
  exact h

theorem intro (hok : ∀ a s', p s = .ok a s' → ok a s')
    (hfailed : ∀ e s', p s = .error e s' → failed e s') : Ends p s ok failed := by
  rw [Ends]
  split
  · exact hok _ _ (by assumption)
  · exact hfailed _ _ (by assumption)

theorem mono (h : Ends p s ok failed) (hok : ∀ a s', ok a s' → ok' a s')
    (hfailed : ∀ e s', failed e s' → failed' e s') : Ends p s ok' failed' :=
  intro (fun a s' hp ↦ hok a s' (h.of_ok hp)) fun e s' hp ↦ hfailed e s' (h.of_error hp)

theorem pure {a : α} (h : ok a s) : Ends (Pure.pure a : EStateM ε σ α) s ok failed := h

theorem throw {e : ε} (h : failed e s) : Ends (MonadExcept.throw e : EStateM ε σ α) s ok failed := h

theorem bind {ok : β → σ → Prop} (h : Ends p s (fun a s' ↦ Ends (f a) s' ok failed) failed) :
    Ends (p >>= f) s ok failed := by
  cases hp : p s with
  | ok a s' =>
    rw [Ends, bind_of_ok hp]
    exact h.of_ok hp
  | error e s' =>
    rw [Ends, bind_of_error hp]
    exact h.of_error hp

theorem of_map {g : α → β} {ok : β → σ → Prop} (h : Ends (g <$> p) s ok failed) :
    Ends p s (fun a s' ↦ ok (g a) s') failed := by
  rw [← bind_pure_comp] at h
  refine intro (fun a s' hp ↦ ?_) fun e s' hp ↦ ?_
  · rw [Ends, bind_of_ok hp] at h
    exact h
  · rw [Ends, bind_of_error hp] at h
    exact h

/-- Where nothing is said about failures, what comes first only leads to some state. -/
theorem skip {ok : β → σ → Prop} (h : ∀ a s', Ends (f a) s' ok fun _ _ ↦ True) :
    Ends (p >>= f) s ok fun _ _ ↦ True :=
  bind (intro (fun a s' _ ↦ h a s') fun _ _ _ ↦ trivial)

end Ends

end Lox
