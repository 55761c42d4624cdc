import Lox.Proofs.Loops.Alignment

/-!
# Doing the same with additional frames

Two computations agree if they end in the same way, with machines that are aligned again. The second
one needs more nested calls than the first one, since its loops are blocks within blocks. So one of
the two may run out of them where the other one does not, and then nothing is said. Which of the two
it may be is fixed by a side: an agreement of one side says that the second one manages whenever the
first one does, and an agreement of the other side says the converse.

The rules for putting computations together are the same for both sides.
-/

namespace Lox

variable {τ τ' : Pairing} {Γ : Padding} {M M' N N' : Machine} {α α' β β' ι ι' : Type}

/-! ## Places -/

/-- Two machines are at the same place of the program. -/
structure Meets (τ : Pairing) (Γ : Padding) (M N : Machine) : Prop where
  aligned : M.Aligned τ N
  chains : Chains τ Γ M.current N.current

/-- What two parts of a program leave as it was. -/
structure Later (τ : Pairing) (M N : Machine) (τ' : Pairing) (M' N' : Machine) : Prop where
  within : τ.Within τ'
  first : M'.current = M.current
  second : N'.current = N.current

theorem Later.refl (τ : Pairing) (M N : Machine) : Later τ M N τ M N := ⟨fun _ _ h ↦ h, rfl, rfl⟩

theorem Later.trans {τ₁ : Pairing} {M₁ N₁ : Machine} (h : Later τ M N τ₁ M₁ N₁)
    (h' : Later τ₁ M₁ N₁ τ' M' N') : Later τ M N τ' M' N' :=
  ⟨fun _ _ hid ↦ h'.within (h.within hid), h'.first.trans h.first, h'.second.trans h.second⟩

theorem Meets.later (h : Meets τ Γ M N) (hlater : Later τ M N τ' M' N')
    (haligned : M'.Aligned τ' N') : Meets τ' Γ M' N' := by
  refine ⟨haligned, ?_⟩
  rw [hlater.first, hlater.second]
  exact h.chains.mono hlater.within

/-! ## Ways to end -/

/-- Distances that do not fit in the same way. -/
inductive Desync.Similar : Desync → Desync → Prop
  | noFrame {d d' : Int} : Similar (.noFrame d) (.noFrame d')
  | unbound {x : String} {d d' : Int} : Similar (.unbound x d) (.unbound x d')

/-- Two ways of leaving a part of a program early. -/
inductive Interrupt.Aligned (τ : Pairing) : Interrupt → Interrupt → Prop
  | returning {V W : Value} : V.Aligned τ W → Interrupt.Aligned τ (.returning V) (.returning W)
  | issue {i : Issue} : Interrupt.Aligned τ (.issue i) (.issue i)
  | desync {e e' : Desync} : e.Similar e' → Interrupt.Aligned τ (.desync e) (.desync e')
  | stuck : Interrupt.Aligned τ .stuck .stuck
  | exhausted : Interrupt.Aligned τ .exhausted .exhausted

/-- A computation runs out of nested calls. -/
def Overflows (p : Eval α) (M : Machine) : Prop :=
  ∃ M', p M = .error (.issue (.anywhere .stackOverflow)) M'

theorem Overflows.bind {p : Eval α} (h : Overflows p M) (f : α → Eval β) :
    Overflows (p >>= f) M := by
  obtain ⟨M', hp⟩ := h
  exact ⟨M', bind_of_error hp⟩

theorem overflows_bind {p : Eval α} {f : α → Eval β} {a : α} (hp : p M = .ok a M')
    (h : Overflows (f a) M') : Overflows (p >>= f) M := by
  obtain ⟨M'', hf⟩ := h
  exact ⟨M'', (bind_of_ok hp).trans hf⟩

theorem within_of_ok {env : Environment} {p : Eval α} {a : α}
    (hp : p { M with current := env } = .ok a M') :
    Eval.within env p M = .ok a { M' with current := M.current } := by rw [Eval.within, hp]

theorem within_of_error {env : Environment} {p : Eval α} {i : Interrupt}
    (hp : p { M with current := env } = .error i M') :
    Eval.within env p M = .error i { M' with current := M.current } := by rw [Eval.within, hp]

theorem overflows_within {env : Environment} {p : Eval α}
    (h : Overflows p { M with current := env }) :
    Overflows (Eval.within env p) M := by
  obtain ⟨M', hp⟩ := h
  exact ⟨_, within_of_error hp⟩

theorem overflows_catchReturn {p : Eval Unit} (h : Overflows p M) :
    Overflows (Eval.catchReturn p) M := by
  obtain ⟨M', hp⟩ := h
  exact ⟨M', by rw [Eval.catchReturn, hp]⟩

/-- Which one of two computations may run out of nested calls. -/
inductive Side where
  | first
  | second

/-- The computation of that side runs out of nested calls. -/
def Side.Overflows (side : Side) (p : Eval α) (M : Machine) (q : Eval α') (N : Machine) : Prop :=
  match side with
  | .first => Lox.Overflows p M
  | .second => Lox.Overflows q N

/-- What is kept on both sides when more is done. -/
theorem Side.Overflows.map {side : Side} {p : Eval α} {q : Eval α'} {p' : Eval β} {q' : Eval β'}
    (h : side.Overflows p M q N) (hp : Lox.Overflows p M → Lox.Overflows p' M')
    (hq : Lox.Overflows q N → Lox.Overflows q' N') : side.Overflows p' M' q' N' := by
  cases side with
  | first => exact hp h
  | second => exact hq h

/-- Two computations do the same, unless the one of a side runs out of nested calls. -/
inductive Agrees (side : Side) (τ : Pairing) (p : Eval α) (M : Machine) (q : Eval α') (N : Machine)
    (R : Pairing → α → α' → Prop) : Prop
  | short : side.Overflows p M q N → Agrees side τ p M q N R
  | ok {a : α} {a' : α'} {τ' : Pairing} {M' N' : Machine} :
      p M = .ok a M' → q N = .ok a' N' → Later τ M N τ' M' N' → M'.Aligned τ' N' → R τ' a a' →
      Agrees side τ p M q N R
  | error {i i' : Interrupt} {τ' : Pairing} {M' N' : Machine} :
      p M = .error i M' → q N = .error i' N' → Later τ M N τ' M' N' → M'.Aligned τ' N' →
      i.Aligned τ' i' → Agrees side τ p M q N R

namespace Agrees

variable {side : Side} {p : Eval α} {q : Eval α'} {f : α → Eval β} {g : α' → Eval β'}
  {R : Pairing → α → α' → Prop} {S : Pairing → β → β' → Prop}

/-- A step that changes neither the frames nor the current environment. -/
theorem step {a : α} {a' : α'} (hp : p M = .ok a M') (hq : q N = .ok a' N')
    (haligned : M'.Aligned τ N') (hfirst : M'.current = M.current)
    (hsecond : N'.current = N.current) (ha : R τ a a') : Agrees side τ p M q N R :=
  .ok hp hq ⟨fun _ _ h ↦ h, hfirst, hsecond⟩ haligned ha

theorem pure {a : α} {a' : α'} (h : M.Aligned τ N) (ha : R τ a a') :
    Agrees side τ (Pure.pure a) M (Pure.pure a') N R := .ok rfl rfl (.refl τ M N) h ha

theorem throw {i i' : Interrupt} (h : M.Aligned τ N) (hi : i.Aligned τ i') :
    Agrees side τ (MonadExcept.throw i : Eval α) M (MonadExcept.throw i' : Eval α') N R :=
  .error rfl rfl (.refl τ M N) h hi

theorem fail (h : M.Aligned τ N) (token : Token) (cause : Issue.Cause) :
    Agrees side τ (Eval.fail token cause : Eval α) M (Eval.fail token cause : Eval α') N R :=
  throw h .issue

theorem bind (h : Meets τ Γ M N) (hp : Agrees side τ p M q N R)
    (hf : ∀ {τ₁ : Pairing} {M₁ N₁ : Machine} {a : α} {a' : α'}, Meets τ₁ Γ M₁ N₁ → τ.Within τ₁ →
      R τ₁ a a' → Agrees side τ₁ (f a) M₁ (g a') N₁ S) :
    Agrees side τ (p >>= f) M (q >>= g) N S := by
  cases hp with
  | short hshort => exact .short (hshort.map (fun h ↦ h.bind f) fun h ↦ h.bind g)
  | error hp hq hlater haligned hi =>
    exact .error (bind_of_error hp) (bind_of_error hq) hlater haligned hi
  | ok hp hq hlater haligned ha =>
    cases hf (h.later hlater haligned) hlater.within ha with
    | short hshort => exact .short (hshort.map (overflows_bind hp) (overflows_bind hq))
    | ok hp' hq' hlater' haligned' hb =>
      exact .ok ((bind_of_ok hp).trans hp') ((bind_of_ok hq).trans hq') (hlater.trans hlater')
        haligned' hb
    | error hp' hq' hlater' haligned' hi =>
      exact .error ((bind_of_ok hp).trans hp') ((bind_of_ok hq).trans hq') (hlater.trans hlater')
        haligned' hi

theorem map {g : α → β} {g' : α' → β'} (h : Meets τ Γ M N) (hp : Agrees side τ p M q N R)
    (hg : ∀ τ' a a', R τ' a a' → S τ' (g a) (g' a')) :
    Agrees side τ (g <$> p) M (g' <$> q) N S := by
  rw [← bind_pure_comp, ← bind_pure_comp]
  exact hp.bind h fun h' _ ha ↦ pure h'.aligned (hg _ _ _ ha)

/-- What matters of two computations is how they end. -/
theorem of_eq {p' : Eval α} {q' : Eval α'} (h : Agrees side τ p' M q' N R) (hp : p M = p' M)
    (hq : q N = q' N) : Agrees side τ p M q N R := by
  cases h with
  | short hshort =>
    exact .short (hshort.map (fun ⟨_, h⟩ ↦ ⟨_, hp.trans h⟩) fun ⟨_, h⟩ ↦ ⟨_, hq.trans h⟩)
  | ok hp' hq' hlater haligned ha => exact .ok (hp.trans hp') (hq.trans hq') hlater haligned ha
  | error hp' hq' hlater haligned hi =>
    exact .error (hp.trans hp') (hq.trans hq') hlater haligned hi

theorem get {f : Machine → Eval β} {g : Machine → Eval β'}
    (h : Agrees side τ (f M) M (g N) N S) :
    Agrees side τ (MonadState.get >>= f) M (MonadState.get >>= g) N S := h.of_eq rfl rfl

/-- A step that only the second computation makes. -/
theorem second {a' : α'} {p : Eval β} (hq : q N = .ok a' N') (hcurrent : N'.current = N.current)
    (h : Agrees side τ p M (g a') N' S) : Agrees side τ p M (q >>= g) N S := by
  cases h with
  | short hshort => exact .short (hshort.map id (overflows_bind hq))
  | ok hp hq' hlater haligned hb =>
    exact .ok hp ((bind_of_ok hq).trans hq')
      ⟨hlater.within, hlater.first, hlater.second.trans hcurrent⟩ haligned hb
  | error hp hq' hlater haligned hi =>
    exact .error hp ((bind_of_ok hq).trans hq')
      ⟨hlater.within, hlater.first, hlater.second.trans hcurrent⟩ haligned hi

/-! ### Environments -/

/-- Each side is in another environment in between. -/
theorem within {env env' : Environment}
    (h : Agrees side τ p { M with current := env } q { N with current := env' } R) :
    Agrees side τ (Eval.within env p) M (Eval.within env' q) N R := by
  cases h with
  | short hshort => exact .short (hshort.map overflows_within overflows_within)
  | ok hp hq hlater haligned ha =>
    exact .ok (within_of_ok hp) (within_of_ok hq) ⟨hlater.within, rfl, rfl⟩ { haligned with } ha
  | error hp hq hlater haligned hi =>
    exact .error (within_of_error hp) (within_of_error hq) ⟨hlater.within, rfl, rfl⟩
      { haligned with } hi

/-- Only the second computation is in another environment in between. -/
theorem withinSecond {env' : Environment}
    (h : Agrees side τ p M q { N with current := env' } R) :
    Agrees side τ p M (Eval.within env' q) N R := by
  cases h with
  | short hshort => exact .short (hshort.map id overflows_within)
  | ok hp hq hlater haligned ha =>
    exact .ok hp (within_of_ok hq) ⟨hlater.within, hlater.first, rfl⟩ { haligned with } ha
  | error hp hq hlater haligned hi =>
    exact .error hp (within_of_error hq) ⟨hlater.within, hlater.first, rfl⟩ { haligned with } hi

/-- Both sides do something in a new frame. -/
theorem enclosed {env env' : Environment} {b b' : Bindings Value} (h : M.Aligned τ N)
    (hchains : Chains τ Γ env env') (hb : b.Related (Value.Aligned τ) b')
    (hp : ∀ {τ₁ : Pairing} {M₁ N₁ : Machine}, Meets τ₁ (false :: Γ) M₁ N₁ → τ.Within τ₁ →
      Agrees side τ₁ p M₁ q N₁ R) :
    Agrees side τ (Eval.newFrame env b >>= fun env ↦ Eval.within env p) M
      (Eval.newFrame env' b' >>= fun env' ↦ Eval.within env' q) N R := by
  have hwithin := Pairing.within_add τ M.frames.next N.frames.next
  have hmeets : Meets (τ.add M.frames.next N.frames.next) (false :: Γ)
      { M with frames := M.frames.push b, current := M.frames.next :: env }
      { N with frames := N.frames.push b', current := N.frames.next :: env' } :=
    ⟨{ h.push hb with }, .common (Pairing.add_self ..) (hchains.mono hwithin)⟩
  have hrun := within (M := { M with frames := M.frames.push b })
    (N := { N with frames := N.frames.push b' }) (hp hmeets hwithin)
  cases hrun with
  | short hshort => exact .short hshort
  | ok hp hq hlater haligned ha =>
    exact .ok hp hq ⟨fun _ _ h ↦ hlater.within (hwithin h), hlater.first, hlater.second⟩ haligned ha
  | error hp hq hlater haligned hi =>
    exact .error hp hq ⟨fun _ _ h ↦ hlater.within (hwithin h), hlater.first, hlater.second⟩
      haligned hi

/-- The second computation does the same in an additional frame. -/
theorem enclosedSecond {b' : Bindings Value} (h : Meets τ Γ M N)
    (hq : ∀ {N₁ : Machine}, Meets τ (true :: Γ) M N₁ → Agrees side τ p M q N₁ R) :
    Agrees side τ p M
      (Eval.newFrame N.current b' >>= fun env' ↦ Eval.within env' q) N R := by
  have hframe : Eval.newFrame N.current b' N
      = .ok (N.frames.next :: N.current) { N with frames := N.frames.push b' } := rfl
  refine second hframe rfl (withinSecond (hq ⟨?_, .extra h.chains⟩))
  exact { h.aligned.pushExtra b' with }

/-! ### Repetition -/

/-- Items that are dealt with one after the other. -/
theorem mapM {T : ι → ι' → Prop} {f : ι → Eval α} {g : ι' → Eval α'}
    (hmono : ∀ τ τ' a a', τ.Within τ' → R τ a a' → R τ' a a')
    (hf : ∀ item item', T item item' → ∀ {τ : Pairing} {M N : Machine}, Meets τ Γ M N →
      Agrees side τ (f item) M (g item') N R)
    {items : List ι} {items' : List ι'} (hitems : List.Forall₂ T items items')
    (h : Meets τ Γ M N) :
    Agrees side τ (items.mapM f) M (items'.mapM g) N fun τ ↦ List.Forall₂ (R τ) := by
  induction hitems generalizing τ M N with
  | nil => exact pure h.aligned .nil
  | cons hitem _ ih =>
    rw [List.mapM_cons, List.mapM_cons]
    refine (hf _ _ hitem h).bind h fun h₁ _ ha ↦ (ih h₁).bind h₁ fun h₂ hwithin has ↦ ?_
    exact pure h₂.aligned (.cons (hmono _ _ _ _ hwithin ha) has)

theorem repeatWhile {round round' : Eval Bool}
    (hround : ∀ {τ : Pairing} {M N : Machine}, Meets τ Γ M N →
      Agrees side τ round M round' N fun _ b b' ↦ b = b')
    (rounds : Nat) (h : Meets τ Γ M N) :
    Agrees side τ (Eval.repeatWhile round rounds) M (Eval.repeatWhile round' rounds) N
      fun _ _ _ ↦ True := by
  induction rounds generalizing τ M N with
  | zero => exact throw h.aligned .exhausted
  | succ rounds ih =>
    rw [Eval.repeatWhile, Eval.repeatWhile]
    refine (hround h).bind h fun {_ _ _ b b'} h₁ _ hb ↦ ?_
    subst hb
    cases b with
    | true => exact ih h₁
    | false => exact pure h₁.aligned trivial

theorem catchReturn {p q : Eval Unit} {R : Pairing → Unit → Unit → Prop}
    (h : Agrees side τ p M q N R) :
    Agrees side τ (Eval.catchReturn p) M (Eval.catchReturn q) N Value.Aligned := by
  cases h with
  | short hshort => exact .short (hshort.map overflows_catchReturn overflows_catchReturn)
  | ok hp hq hlater haligned _ =>
    exact .ok (by rw [Eval.catchReturn, hp]) (by rw [Eval.catchReturn, hq]) hlater haligned .nil
  | error hp hq hlater haligned hi =>
    cases hi with
    | returning hV =>
      exact .ok (by rw [Eval.catchReturn, hp]) (by rw [Eval.catchReturn, hq]) hlater haligned hV
    | issue =>
      exact .error (by rw [Eval.catchReturn, hp]) (by rw [Eval.catchReturn, hq]) hlater haligned
        .issue
    | desync he =>
      exact .error (by rw [Eval.catchReturn, hp]) (by rw [Eval.catchReturn, hq]) hlater haligned
        (.desync he)
    | stuck =>
      exact .error (by rw [Eval.catchReturn, hp]) (by rw [Eval.catchReturn, hq]) hlater haligned
        .stuck
    | exhausted =>
      exact .error (by rw [Eval.catchReturn, hp]) (by rw [Eval.catchReturn, hq]) hlater haligned
        .exhausted

end Agrees

end Lox
