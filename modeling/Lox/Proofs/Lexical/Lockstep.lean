import Lox.Evaluation
import Lox.Proofs.Lexical.Evaluation
import Lox.Proofs.Lexical.Matching
import Lox.Proofs.Outcome

/-!
# Going in lockstep

The evaluator and the lexical semantics do the same things in the same order. `Lockstep` says of two
computations that start in corresponding states that they end in the same way, and in corresponding
states again. There is one exception: the evaluator may find itself out of step when it assigns to a
variable that is on the way, and nothing is said about the lexical semantics then.

## What changes

While an expression is evaluated, none of the frames that are there gets another name. A statement
adds names to the frame that is current, and to no other one. So around a place the names in scope
stay what they are, and a context that was right before is right afterwards.
-/

namespace Lox.Lexical

variable {excused : String → Prop} {inside : Bool} {α α' γ γ' : Type} {β β' : Placement}
  {M M' : Lox.Machine}
  {μ μ' : Machine} {ctx : Context} {scope : Scope}

/-! ## Places -/

/-- The current frame binds no more names than the context lists. -/
def Placement.Exact (β : Placement) (next : RecordId) : Context → Environment → Prop
  | .names xs :: _, id :: _ => 2 ≤ id ∧ id < next ∧ ∀ x, (β id x).isSome → x ∈ xs
  | _, _ => True

/-- The two machines correspond at a place of the program. -/
structure Meets (excused : String → Prop) (β : Placement) (ctx : Context) (scope : Scope)
    (M : Lox.Machine) (μ : Machine) : Prop where
  agree : Matches excused β M μ
  proper : ctx.Proper
  isOpen : ctx.IsOpen
  placed : Placed β ctx M.current
  head : β.Exact M.frames.next ctx M.current
  scope : scope = β.scope ctx M.current

/-- What a part of a program leaves as it was. -/
structure Later (β : Placement) (M : Lox.Machine) (β' : Placement) (M' : Lox.Machine) : Prop where
  within : β.Within β'
  same : ∀ id < M.frames.next, M.current.head? ≠ some id → β' id = β id
  next : M.frames.next ≤ M'.frames.next
  current : M'.current = M.current

theorem Later.refl (β : Placement) (M : Lox.Machine) : Later β M β M :=
  ⟨.refl β, fun _ _ _ ↦ rfl, Nat.le_refl _, rfl⟩

theorem Later.trans {β₁ : Placement} {M₁ : Lox.Machine} (h : Later β M β₁ M₁)
    (h' : Later β₁ M₁ β' M') : Later β M β' M' :=
  ⟨h.within.trans h'.within,
    fun id hid hhead ↦ (h'.same id (Nat.lt_of_lt_of_le hid h.next) (h.current ▸ hhead)).trans
      (h.same id hid hhead),
    Nat.le_trans h.next h'.next, h'.current.trans h.current⟩

/-- A step that neither adds names nor changes the current environment. -/
theorem Later.of_eq (hnext : M.frames.next ≤ M'.frames.next) (hcurrent : M'.current = M.current) :
    Later β M β M' := ⟨.refl β, fun _ _ _ ↦ rfl, hnext, hcurrent⟩

/-- A place stays what it is where no names are added to the frames that are there. -/
theorem Meets.of_same (h : Meets excused β ctx scope M μ) (hagree : Matches excused β' M' μ')
    (hsame : ∀ id < M.frames.next, β' id = β id) (hnext : M.frames.next ≤ M'.frames.next)
    (hcurrent : M'.current = M.current) : Meets excused β' ctx scope M' μ' := by
  obtain ⟨hagree₀, hproper, hopen, hplaced, hhead, hscope⟩ := h
  have hwithin : β.Within β' := fun id x l hl ↦ by
    rw [hsame id (hagree₀.lt_next hl)]
    exact hl
  refine ⟨hagree, hproper, hopen, hcurrent ▸ hplaced.mono hwithin, ?_, ?_⟩
  · rw [hcurrent]
    revert hhead
    rw [Placement.Exact.eq_def, Placement.Exact.eq_def]
    split
    · rintro ⟨hid, hlt, hxs⟩
      rw [hsame _ hlt]
      exact ⟨hid, Nat.lt_of_lt_of_le hlt hnext, hxs⟩
    · exact id
  · rw [hcurrent, hplaced.scope_eq hwithin]
    exact hscope

theorem Meets.of_eq (h : Meets excused β ctx scope M μ) (hagree : Matches excused β M' μ')
    (hnext : M.frames.next ≤ M'.frames.next) (hcurrent : M'.current = M.current) :
    Meets excused β ctx scope M' μ' := h.of_same hagree (fun _ _ ↦ rfl) hnext hcurrent

/-! ## Ways to end -/

/-- Two ways of leaving a part of a program early. Only what is inside of a function can return. -/
inductive InterruptMatches (excused : String → Prop) : Bool → Placement → Lox.Interrupt →
    Interrupt → Prop
  | returning {β : Placement} {V : Lox.Value} {v : Value} :
      ValueMatches excused β V v → InterruptMatches excused true β (.returning V) (.returning v)
  | issue {inside : Bool} {β : Placement} {i : Issue} :
      InterruptMatches excused inside β (.issue i) (.issue i)
  | exhausted {inside : Bool} {β : Placement} :
      InterruptMatches excused inside β .exhausted .exhausted

/-- The evaluator is out of step, because of a variable that is excused. -/
def Lost (excused : String → Prop) (i : Lox.Interrupt) : Prop :=
  ∃ x, i = .desync (.unbound x 0) ∧ excused x

/-- Two computations do the same. -/
def Lockstep (excused : String → Prop) (inside : Bool) (β : Placement) (p : Lox.Eval α)
    (M : Lox.Machine)
    (q : Eval α') (μ : Machine)
    (ok : Placement → Lox.Machine → Machine → α → α' → Prop) : Prop :=
  match p M with
  | .ok a M' => ∃ β' a' μ', q μ = .ok a' μ' ∧ Later β M β' M' ∧ ok β' M' μ' a a'
  | .error i M' => ∃ β' μ', Later β M β' M' ∧ Matches excused β' M' μ' ∧
      ((∃ i', q μ = .error i' μ' ∧ InterruptMatches excused inside β' i i') ∨ Lost excused i)

/-- The machines meet in the same place as before, with related results. -/
def Yields (excused : String → Prop) (ctx : Context) (scope : Scope)
    (R : Placement → α → α' → Prop) :
    Placement → Lox.Machine → Machine → α → α' → Prop :=
  fun β M μ a a' ↦ Meets excused β ctx scope M μ ∧ R β a a'

namespace Lockstep

variable {p : Lox.Eval α} {q : Eval α'} {f : α → Lox.Eval γ} {g : α' → Eval γ'}
  {ok ok' : Placement → Lox.Machine → Machine → α → α' → Prop}
  {next : Placement → Lox.Machine → Machine → γ → γ' → Prop}

theorem of_ok {a : α} {a' : α'} (hp : p M = .ok a M') (hq : q μ = .ok a' μ')
    (hlater : Later β M β' M') (hok : ok β' M' μ' a a') : Lockstep excused inside β p M q μ ok := by
  rw [Lockstep, hp]
  exact ⟨β', a', μ', hq, hlater, hok⟩

theorem of_error {i : Lox.Interrupt} {i' : Interrupt} (hp : p M = .error i M')
    (hq : q μ = .error i' μ') (hlater : Later β M β' M') (hagree : Matches excused β' M' μ')
    (hi : InterruptMatches excused inside β' i i') : Lockstep excused inside β p M q μ ok := by
  rw [Lockstep, hp]
  exact ⟨β', μ', hlater, hagree, .inl ⟨i', hq, hi⟩⟩

theorem lost {i : Lox.Interrupt} (hp : p M = .error i M') (hlater : Later β M β' M')
    (hagree : Matches excused β' M' μ') (hi : Lost excused i) :
    Lockstep excused inside β p M q μ ok := by
  rw [Lockstep, hp]
  exact ⟨β', μ', hlater, hagree, .inr hi⟩

theorem ok_of (h : Lockstep excused inside β p M q μ ok) {a : α} (hp : p M = .ok a M') :
    ∃ β' a' μ', q μ = .ok a' μ' ∧ Later β M β' M' ∧ ok β' M' μ' a a' := by
  rw [Lockstep, hp] at h
  exact h

theorem error_of (h : Lockstep excused inside β p M q μ ok) {i : Lox.Interrupt}
    (hp : p M = .error i M') :
    ∃ β' μ', Later β M β' M' ∧ Matches excused β' M' μ' ∧
      ((∃ i', q μ = .error i' μ' ∧ InterruptMatches excused inside β' i i') ∨ Lost excused i) := by
  rw [Lockstep, hp] at h
  exact h

theorem intro
    (hok : ∀ a M', p M = .ok a M' → ∃ β' a' μ', q μ = .ok a' μ' ∧ Later β M β' M' ∧
      ok β' M' μ' a a')
    (herror : ∀ i M', p M = .error i M' → ∃ β' μ', Later β M β' M' ∧ Matches excused β' M' μ' ∧
      ((∃ i', q μ = .error i' μ' ∧ InterruptMatches excused inside β' i i') ∨ Lost excused i)) :
    Lockstep excused inside β p M q μ ok := by
  rw [Lockstep]
  split
  · exact hok _ _ (by assumption)
  · exact herror _ _ (by assumption)

theorem mono (h : Lockstep excused inside β p M q μ ok)
    (hok : ∀ β' M' μ' a a', Later β M β' M' → ok β' M' μ' a a' → ok' β' M' μ' a a') :
    Lockstep excused inside β p M q μ ok' := by
  refine intro (fun a M' hp ↦ ?_) fun i M' hp ↦ h.error_of hp
  obtain ⟨β', a', μ', hq, hlater, ha⟩ := h.ok_of hp
  exact ⟨β', a', μ', hq, hlater, hok _ _ _ _ _ hlater ha⟩

theorem pure {a : α} {a' : α'} (h : ok β M μ a a') :
    Lockstep excused inside β (Pure.pure a) M (Pure.pure a') μ ok := of_ok rfl rfl (.refl β M) h

theorem throw {i : Lox.Interrupt} {i' : Interrupt} (hagree : Matches excused β M μ)
    (hi : InterruptMatches excused inside β i i') :
    Lockstep excused inside β (MonadExcept.throw i) M (MonadExcept.throw i') μ ok :=
  of_error rfl rfl (.refl β M) hagree hi

theorem bind (hp : Lockstep excused inside β p M q μ ok)
    (hf : ∀ β₁ M₁ μ₁ a a', Later β M β₁ M₁ → ok β₁ M₁ μ₁ a a' →
      Lockstep excused inside β₁ (f a) M₁ (g a') μ₁ next) :
    Lockstep excused inside β (p >>= f) M (q >>= g) μ next := by
  cases hpM : p M with
  | ok a M₁ =>
    obtain ⟨β₁, a', μ₁, hq, hlater, hok⟩ := hp.ok_of hpM
    have h := hf β₁ M₁ μ₁ a a' hlater hok
    refine intro (fun b M' hb ↦ ?_) fun i M' hi ↦ ?_
    · rw [bind_of_ok hpM] at hb
      obtain ⟨β', b', μ', hg, hlater', hnext⟩ := h.ok_of hb
      exact ⟨β', b', μ', (bind_of_ok hq).trans hg, hlater.trans hlater', hnext⟩
    · rw [bind_of_ok hpM] at hi
      obtain ⟨β', μ', hlater', hagree, hcase⟩ := h.error_of hi
      exact ⟨β', μ', hlater.trans hlater', hagree,
        hcase.imp_left fun ⟨i', hg, hi'⟩ ↦ ⟨i', (bind_of_ok hq).trans hg, hi'⟩⟩
  | error i M₁ =>
    obtain ⟨β₁, μ₁, hlater, hagree, hcase⟩ := hp.error_of hpM
    refine intro (fun b M' hb ↦ ?_) fun i' M' hi ↦ ?_
    · rw [bind_of_error hpM] at hb
      cases hb
    · rw [bind_of_error hpM] at hi
      cases hi
      exact ⟨β₁, μ₁, hlater, hagree,
        hcase.imp_left fun ⟨i', hq, hi'⟩ ↦ ⟨i', bind_of_error hq, hi'⟩⟩

theorem map {f : α → γ} {g : α' → γ'} (hp : Lockstep excused inside β p M q μ ok)
    (h : ∀ β' M' μ' a a', ok β' M' μ' a a' → next β' M' μ' (f a) (g a')) :
    Lockstep excused inside β (f <$> p) M (g <$> q) μ next := by
  rw [← bind_pure_comp, ← bind_pure_comp]
  exact hp.bind fun _ _ _ _ _ _ ha ↦ pure (h _ _ _ _ _ ha)

theorem get {f : Lox.Machine → Lox.Eval γ} {g : Machine → Eval γ'}
    (h : Lockstep excused inside β (f M) M (g μ) μ next) :
    Lockstep excused inside β (MonadState.get >>= f) M (MonadState.get >>= g) μ next := h

/-- A look at the frames, which the lexical semantics has no need of. -/
theorem look {f : Lox.Machine → Lox.Eval γ} {q : Eval γ'}
    (h : Lockstep excused inside β (f M) M q μ next) :
    Lockstep excused inside β (MonadState.get >>= f) M q μ next := h

/-- A step that only the lexical semantics makes. -/
theorem andReturn {b : α' → γ'} {next : Placement → Lox.Machine → Machine → α → γ' → Prop}
    (hp : Lockstep excused inside β p M q μ ok)
    (h : ∀ β' M' μ' a a', ok β' M' μ' a a' → next β' M' μ' a (b a')) :
    Lockstep excused inside β p M (q >>= fun a' ↦ Pure.pure (b a')) μ next := by
  rw [← bind_pure p]
  exact hp.bind fun _ _ _ _ _ _ ha ↦ pure (h _ _ _ _ _ ha)

/-! ### Values in a place -/

variable {R : Placement → α → α' → Prop}

/-- Both sides go on without adding any names. -/
theorem of_eq {a : α} {a' : α'} (h : Meets excused β ctx scope M μ) (hp : p M = .ok a M')
    (hq : q μ = .ok a' μ') (hagree : Matches excused β M' μ')
    (hnext : M.frames.next ≤ M'.frames.next) (hcurrent : M'.current = M.current) (hR : R β a a') :
    Lockstep excused inside β p M q μ (Yields excused ctx scope R) :=
  of_ok hp hq (.of_eq hnext hcurrent) ⟨h.of_eq hagree hnext hcurrent, hR⟩

/-- Items that are dealt with one after the other. -/
theorem mapM {ι : Type} {f : ι → Lox.Eval α} {g : ι → Eval α'} (items : List ι)
    (hmono : ∀ β β' a a', β.Within β' → R β a a' → R β' a a')
    (h : ∀ item ∈ items, ∀ β M μ, Meets excused β ctx scope M μ →
      Lockstep excused inside β (f item) M (g item) μ (Yields excused ctx scope R)) :
    ∀ β M μ, Meets excused β ctx scope M μ →
    Lockstep excused inside β (items.mapM f) M (items.mapM g) μ
      (Yields excused ctx scope fun β as as' ↦ List.Forall₂ (R β) as as') := by
  induction items with
  | nil => exact fun β M μ hmeets ↦ pure ⟨hmeets, .nil⟩
  | cons item items ih =>
    intro β M μ hmeets
    rw [List.forall_mem_cons] at h
    rw [List.mapM_cons, List.mapM_cons]
    refine (h.1 β M μ hmeets).bind fun β₁ M₁ μ₁ a a' _ ⟨hmeets₁, ha⟩ ↦
      (ih h.2 β₁ M₁ μ₁ hmeets₁).bind fun β₂ M₂ μ₂ as as' hlater ⟨hmeets₂, has⟩ ↦ pure ?_
    exact ⟨hmeets₂, .cons (hmono _ _ _ _ hlater.within ha) has⟩

theorem repeatWhile {round : Lox.Eval Bool} {round' : Eval Bool}
    (h : ∀ β M μ, Meets excused β ctx scope M μ →
      Lockstep excused inside β round M round' μ (Yields excused ctx scope fun _ b b' ↦ b = b')) :
    ∀ rounds β M μ, Meets excused β ctx scope M μ → Lockstep excused inside β
      (Lox.Eval.repeatWhile round rounds) M (Eval.repeatWhile round' rounds) μ
      (Yields excused ctx scope fun _ _ _ ↦ True) := by
  intro rounds
  induction rounds with
  | zero => exact fun β M μ hmeets ↦ throw hmeets.agree .exhausted
  | succ rounds ih =>
    intro β M μ hmeets
    refine (h β M μ hmeets).bind fun β₁ M₁ μ₁ b b' _ ⟨hmeets₁, hb⟩ ↦ ?_
    subst hb
    cases b with
    | true => exact ih β₁ M₁ μ₁ hmeets₁
    | false => exact pure ⟨hmeets₁, trivial⟩

/-! ### Functions and frames -/

theorem catchReturn {p : Lox.Eval Unit} {q : Eval Unit}
    {ok : Placement → Lox.Machine → Machine → Unit → Unit → Prop}
    (h : Lockstep excused true β p M q μ ok)
    (hok : ∀ β' M' μ' u u', ok β' M' μ' u u' → Matches excused β' M' μ') :
    Lockstep excused inside β (Lox.Eval.catchReturn p) M (Eval.catchReturn q) μ
      fun β' M' μ' V v ↦ Matches excused β' M' μ' ∧ ValueMatches excused β' V v := by
  cases hp : p M with
  | ok u M' =>
    obtain ⟨β', u', μ', hq, hlater, hu⟩ := h.ok_of hp
    refine of_ok ?_ ?_ hlater ⟨hok _ _ _ _ _ hu, .nil⟩
    · rw [Lox.Eval.catchReturn, hp]
    · rw [Eval.catchReturn, hq]
  | error i M' =>
    obtain ⟨β', μ', hlater, hagree, ⟨i', hq, hi⟩ | ⟨x, rfl, hx⟩⟩ := h.error_of hp
    · cases hi with
      | @returning _ V v hv =>
        have hcatch : Lox.Eval.catchReturn p M = .ok V M' := by rw [Lox.Eval.catchReturn, hp]
        exact of_ok hcatch (by rw [Eval.catchReturn, hq]) hlater ⟨hagree, hv⟩
      | @issue _ _ i =>
        have hcatch : Lox.Eval.catchReturn p M = .error (.issue i) M' := by
          rw [Lox.Eval.catchReturn, hp]
        exact of_error hcatch (by rw [Eval.catchReturn, hq]) hlater hagree .issue
      | exhausted =>
        have hcatch : Lox.Eval.catchReturn p M = .error .exhausted M' := by
          rw [Lox.Eval.catchReturn, hp]
        exact of_error hcatch (by rw [Eval.catchReturn, hq]) hlater hagree .exhausted
    · have hcatch : Lox.Eval.catchReturn p M = .error (.desync (.unbound x 0)) M' := by
        rw [Lox.Eval.catchReturn, hp]
      exact lost hcatch hlater hagree ⟨x, rfl, hx⟩

/-- Returning from a frame and leaving it can be done in either order. -/
theorem catchReturn_within (env : Environment) (p : Lox.Eval Unit) :
    Lox.Eval.catchReturn (Lox.Eval.within env p)
      = Lox.Eval.within env (Lox.Eval.catchReturn p) := by
  funext M
  rw [Lox.Eval.catchReturn, Lox.Eval.within, Lox.Eval.within, Lox.Eval.catchReturn]
  cases p { M with current := env } with
  | ok u M' => rfl
  | error i M' => cases i <;> rfl

/-- Something is done in a new frame, which is left afterwards in any case. What happens in there
cannot be seen from outside. -/
theorem enclosed {β₁ : Placement} {μ₁ : Machine} {env : Environment} {b : Bindings Lox.Value}
    {q₁ : Eval α'} (h : Meets excused β ctx scope M μ)
    (hβ : ∀ id < M.frames.next, β₁ id = β id) (hq : q μ = q₁ μ₁)
    (hp : Lockstep excused inside β₁ p
      { M with frames := M.frames.push b, current := M.frames.next :: env } q₁ μ₁
      fun β' M' μ' a a' ↦ Matches excused β' M' μ' ∧ R β' a a') :
    Lockstep excused inside β
      (Lox.Eval.newFrame env b >>= fun env ↦ Lox.Eval.within env p) M q μ
      (Yields excused ctx scope R) := by
  have hwithin : β.Within β₁ := fun id x l hl ↦ by
    rw [hβ id (h.agree.lt_next hl)]
    exact hl
  -- Only the new frame, the innermost one in there, may get names; older frames keep theirs.
  have hold : ∀ {β' : Placement} {M' : Lox.Machine},
      Later β₁ { M with frames := M.frames.push b, current := M.frames.next :: env } β' M' →
      (∀ id < M.frames.next, β' id = β id) ∧ M.frames.next ≤ M'.frames.next := by
    intro β' M' hlater
    refine ⟨fun id hid ↦ ?_, ?_⟩
    · refine (hlater.same id ?_ ?_).trans (hβ id hid)
      · rw [Store.next_push]
        exact Nat.lt_succ_of_lt hid
      · rw [List.head?_cons, ne_eq, Option.some.injEq]
        exact Nat.ne_of_gt hid
    · refine Nat.le_trans ?_ hlater.next
      rw [Store.next_push]
      exact Nat.le_succ _
  have hrun : (Lox.Eval.newFrame env b >>= fun env ↦ Lox.Eval.within env p) M
      = Lox.Eval.within (M.frames.next :: env) p { M with frames := M.frames.push b } := rfl
  rw [Lox.Eval.within] at hrun
  cases hpM : p { M with frames := M.frames.push b, current := M.frames.next :: env } with
  | ok a M' =>
    obtain ⟨β', a', μ', hq₁, hlater, hagree, hR⟩ := hp.ok_of hpM
    obtain ⟨hsame, hnext⟩ := hold hlater
    have hagree : Matches excused β' { M' with current := M.current } μ' := { hagree with }
    refine of_ok (hrun.trans (by rw [hpM])) (hq.trans hq₁) ?_
      ⟨h.of_same hagree hsame hnext rfl, hR⟩
    exact ⟨hwithin.trans hlater.within, fun id hid _ ↦ hsame id hid, hnext, rfl⟩
  | error i M' =>
    obtain ⟨β', μ', hlater, hagree, hcase⟩ := hp.error_of hpM
    obtain ⟨hsame, hnext⟩ := hold hlater
    have hagree : Matches excused β' { M' with current := M.current } μ' := { hagree with }
    rw [Lockstep, hrun, hpM]
    refine ⟨β', μ', ⟨hwithin.trans hlater.within, fun id hid _ ↦ hsame id hid, hnext, rfl⟩, hagree,
      hcase.imp_left fun ⟨i', hq₁, hi⟩ ↦ ⟨i', hq.trans hq₁, hi⟩⟩

end Lockstep

end Lox.Lexical
