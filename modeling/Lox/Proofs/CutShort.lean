import Lox.Proofs.Outcome

/-!
# Computations that are cut short

A bound on nested calls or on rounds may cut a computation short. What is wanted then is that
nothing else is different: where the bound is not reached, a computation under a larger bound does
the same, and where it is, the larger bound lets it go on from there, so that it keeps all that has
been gathered by then. What it is that is gathered, such as complaints, is a parameter.
-/

namespace Lox

variable {ε σ α β : Type} {keeps : σ → σ → Prop} {stop : ε}

/-- However a computation ends that starts in the first state, it has kept what was gathered in the
second one. -/
def Keeping (keeps : σ → σ → Prop) (p : EStateM ε σ α) (s s₁ : σ) : Prop :=
  Ends p s (fun _ s' ↦ keeps s₁ s') fun _ s' ↦ keeps s₁ s'

/-- The second computation does the same as the first one, or else the first one is stopped in a
certain way and the second one goes on. -/
structure CutShort (keeps : σ → σ → Prop) (stop : ε) (p q : EStateM ε σ α) : Prop where
  keeping : ∀ s, Keeping keeps q s s
  agrees : ∀ s, q s = p s ∨ ∃ s₁, p s = .error stop s₁ ∧ Keeping keeps q s s₁

/-- A way to keep things that can be followed from state to state. -/
structure Lasting (keeps : σ → σ → Prop) : Prop where
  refl : ∀ s, keeps s s
  trans : ∀ {s s₁ s₂}, keeps s s₁ → keeps s₁ s₂ → keeps s s₂

namespace Keeping

variable {p : EStateM ε σ α} {f : α → EStateM ε σ β} {s s₁ s' : σ}

theorem of_ok {a : α} (h : Keeping keeps p s s₁) (hp : p s = .ok a s') : keeps s₁ s' := by
  rw [Keeping, Ends, hp] at h
  exact h

theorem of_error {e : ε} (h : Keeping keeps p s s₁) (hp : p s = .error e s') : keeps s₁ s' := by
  rw [Keeping, Ends, hp] at h
  exact h

theorem pure (h : Lasting keeps) (a : α) (s : σ) :
    Keeping keeps (Pure.pure a : EStateM ε σ α) s s := Ends.pure (h.refl s)

theorem throw (h : Lasting keeps) (e : ε) (s : σ) :
    Keeping keeps (MonadExcept.throw e : EStateM ε σ α) s s := Ends.throw (h.refl s)

theorem bind (h : Lasting keeps) (hp : Keeping keeps p s s₁)
    (hf : ∀ a s', Keeping keeps (f a) s' s') : Keeping keeps (p >>= f) s s₁ :=
  Ends.bind (Ends.mono hp (fun a s' hs' ↦ Ends.mono (hf a s') (fun _ _ ↦ h.trans hs')
    fun _ _ ↦ h.trans hs') fun _ _ h ↦ h)

end Keeping

namespace CutShort

variable {p q : EStateM ε σ α} {f g : α → EStateM ε σ β}

/-- A computation that knows no bound. -/
theorem of_keeping (h : ∀ s, Keeping keeps q s s) : CutShort keeps stop q q :=
  ⟨h, fun _ ↦ .inl rfl⟩

theorem pure (h : Lasting keeps) (a : α) :
    CutShort keeps stop (Pure.pure a : EStateM ε σ α) (Pure.pure a) :=
  of_keeping (.pure h a)

/-- A bound that does not let a computation begin. -/
theorem of_stopped (hq : ∀ s, Keeping keeps q s s) :
    CutShort keeps stop (throw stop) q :=
  ⟨hq, fun s ↦ .inr ⟨s, rfl, hq s⟩⟩

theorem bind (h : Lasting keeps) (hpq : CutShort keeps stop p q)
    (hfg : ∀ a, CutShort keeps stop (f a) (g a)) : CutShort keeps stop (p >>= f) (q >>= g) := by
  refine ⟨fun s ↦ (hpq.keeping s).bind h fun a ↦ (hfg a).keeping, fun s ↦ ?_⟩
  rcases hpq.agrees s with hsame | ⟨s₁, hstop, hkeeping⟩
  · cases hp : p s with
    | ok a s' =>
      rw [bind_of_ok hp, bind_of_ok (hsame.trans hp)]
      refine ((hfg a).agrees s').imp_right fun ⟨s₁, hf, hkeeping⟩ ↦ ⟨s₁, hf, ?_⟩
      rw [Keeping, Ends, bind_of_ok (hsame.trans hp)]
      exact hkeeping
    | error e s' =>
      rw [bind_of_error hp, bind_of_error (hsame.trans hp)]
      exact .inl rfl
  · exact .inr ⟨s₁, bind_of_error hstop, hkeeping.bind h fun a ↦ (hfg a).keeping⟩

theorem map {k : α → β} (h : Lasting keeps) (hpq : CutShort keeps stop p q) :
    CutShort keeps stop (k <$> p) (k <$> q) := by
  rw [← bind_pure_comp, ← bind_pure_comp]
  exact hpq.bind h fun a ↦ pure h (k a)

theorem mapM {ι : Type} {f g : ι → EStateM ε σ α} (h : Lasting keeps)
    (hfg : ∀ i, CutShort keeps stop (f i) (g i)) :
    ∀ items : List ι, CutShort keeps stop (items.mapM f) (items.mapM g)
  | [] => pure h []
  | i :: items => by
    rw [List.mapM_cons, List.mapM_cons]
    exact (hfg i).bind h fun _ ↦ (mapM h hfg items).bind h fun _ ↦ pure h _

end CutShort

end Lox
