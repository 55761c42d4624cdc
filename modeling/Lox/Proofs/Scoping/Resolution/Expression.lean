import Lox.Proofs.Outcome
import Lox.Proofs.Scoping.Shape
import Lox.Syntax.Scoping

/-!
# What the walk over the scopes fills in

A program for which the walk has nothing to complain about comes out of it with distances that are
right. As in parsing, a complaint does not stop the walk, so each statement is about a part of it
behind which there are no complaints at all.
-/

namespace Lox

/-! ## Scopes and contexts -/

/-- The scope binds the names of a layer, and all of them are ready. -/
def Layer.Matches (layer : Layer) (scope : Scoping.Scope) : Prop :=
  ∀ x, scope.get? x = if layer.binds x then some true else none

/-- The scopes of the walk at a place in the program. A variable that is on the way is declared
already, but not ready. -/
def Context.Matches (ctx : Context) : Option String → List Scoping.Scope → Prop
  | none, scopes => List.Forall₂ Layer.Matches ctx scopes
  | some x, scopes => ∃ scope outer,
    scopes = scope.insert x false :: outer ∧ List.Forall₂ Layer.Matches ctx (scope :: outer)

namespace Scoping

variable {ctx : Context} {pending : Option String} {scopes : List Scope} {x : String}

theorem contains_eq_binds {layer : Layer} {scope : Scope} (h : layer.Matches scope) (x : String) :
    scope.contains x = layer.binds x := by
  rw [Bindings.contains, h x]
  cases layer.binds x <;> rfl

theorem distance?_eq (h : List.Forall₂ Layer.Matches ctx scopes) (x : String) :
    Scoping.distance? x scopes = ctx.distance? x := by
  rw [Scoping.distance?, Context.distance?]
  induction h with
  | nil => rfl
  | cons hlayer _ ih => rw [List.findIdx?_cons, List.findIdx?_cons, contains_eq_binds hlayer, ih]

theorem distance?_of_ne (h : ctx.Matches pending scopes) (hx : pending ≠ some x) :
    Scoping.distance? x scopes = ctx.distance? x := by
  cases pending with
  | none => exact distance?_eq h x
  | some y =>
    obtain ⟨scope, outer, rfl, h⟩ := h
    rw [← distance?_eq h x, Scoping.distance?, Scoping.distance?, List.findIdx?_cons,
      List.findIdx?_cons, Bindings.contains, Bindings.contains,
      Bindings.get?_insert_of_ne fun heq ↦ hx (congrArg some heq.symm)]

theorem distance?_pending (h : ctx.Matches (some x) scopes) :
    Scoping.distance? x scopes = some 0 := by
  obtain ⟨scope, outer, rfl, _⟩ := h
  rw [Scoping.distance?, List.findIdx?_cons, Bindings.contains, Bindings.get?_insert_self]
  rfl

/-- Only the variable that is on the way is not ready. -/
theorem not_ready_iff (h : ctx.Matches pending scopes) :
    (scopes.head?.any fun scope ↦ decide (scope.get? x = some false)) = true ↔
      pending = some x := by
  have hready : ∀ {ctx : Context} {scopes : List Scope}, List.Forall₂ Layer.Matches ctx scopes →
      ∀ scope ∈ scopes.head?, scope.get? x ≠ some false := by
    intro ctx scopes h scope hscope
    cases h with
    | nil => cases hscope
    | @cons layer _ _ _ hlayer _ =>
      rw [← Option.mem_some_iff.mp hscope, hlayer x]
      cases layer.binds x <;> simp
  cases pending with
  | none =>
    simp only [Option.any_eq_true, decide_eq_true_eq, reduceCtorEq, iff_false]
    rintro ⟨scope, hscope, hx⟩
    exact hready h scope hscope hx
  | some y =>
    obtain ⟨scope, outer, rfl, h⟩ := h
    simp only [List.head?_cons, Option.any_some, decide_eq_true_eq, Option.some.injEq]
    by_cases hxy : x = y
    · rw [hxy, Bindings.get?_insert_self]
      exact ⟨fun _ ↦ rfl, fun _ ↦ rfl⟩
    · rw [Bindings.get?_insert_of_ne hxy]
      exact ⟨fun hx ↦ absurd hx (hready h scope rfl), fun heq ↦ absurd heq.symm hxy⟩

/-! ## Steps of the walk -/

variable {α β : Type} {s : State} {p : Resolve α} {q : α → Resolve β}

/-- Where no complaint is left behind a step, there was none before it, and the outcome is as it
should be. -/
def Resolves (p : Resolve α) (s : State) (R : α → State → Prop) : Prop :=
  ∀ a s', p s = .ok a s' → s'.errors = [] → s.errors = [] ∧ R a s'

namespace Resolves

variable {R : α → State → Prop} {S : β → State → Prop}

theorem mono {R' : α → State → Prop} (h : Resolves p s R) (hR : ∀ a s', R a s' → R' a s') :
    Resolves p s R' := fun a s' hp herrors ↦ ⟨(h a s' hp herrors).1, hR a s' (h a s' hp herrors).2⟩

theorem pure {a : α} (h : R a s) : Resolves (Pure.pure a : Resolve α) s R := by
  rintro _ _ ⟨⟩ herrors
  exact ⟨herrors, h⟩

/-- What is known of the first step is a hypothesis of what is shown of the next. -/
theorem andThen (hp : Resolves p s R)
    (hq : ∀ a s₁, Resolves (q a) s₁ fun b s' ↦ R a s₁ → S b s') : Resolves (p >>= q) s S := by
  intro b s' h herrors
  obtain ⟨a, s₁, hps, hqs⟩ := bind_eq_ok h
  obtain ⟨herrors₁, hS⟩ := hq a s₁ b s' hqs herrors
  obtain ⟨herrors₀, hR⟩ := hp a s₁ hps herrors₁
  exact ⟨herrors₀, hS hR⟩

theorem map {g : α → β} (hp : Resolves p s R) (h : ∀ a s', R a s' → S (g a) s') :
    Resolves (g <$> p) s S := by
  rw [← bind_pure_comp]
  exact hp.andThen fun a s₁ ↦ pure (h a s₁)

theorem throw {e : TooDeep} : Resolves (MonadExcept.throw e : Resolve α) s R :=
  fun _ _ h ↦ by cases h

theorem get {q : State → Resolve α} (h : Resolves (q s) s R) :
    Resolves (MonadState.get >>= q) s R := h

theorem modify {f : State → State} {R : PUnit → State → Prop} (herrors : (f s).errors = s.errors)
    (h : R ⟨⟩ (f s)) : Resolves (modify f : Resolve PUnit) s R := by
  rintro _ _ ⟨⟩ hs
  exact ⟨herrors ▸ hs, h⟩

/-- Items that are dealt with one after the other. -/
theorem mapM {f : α → Resolve β} {Q : State → α → β → State → Prop}
    {R : State → List α → List β → State → Prop} (hf : ∀ a s, Resolves (f a) s (Q s a))
    (hnil : ∀ s, R s [] [] s)
    (hcons : ∀ s s₁ s₂ a as b bs, Q s a b s₁ → R s₁ as bs s₂ → R s (a :: as) (b :: bs) s₂)
    (as : List α) (s : State) : Resolves (as.mapM f) s (R s as) := by
  induction as generalizing s with
  | nil => exact pure (hnil s)
  | cons a as ih =>
    rw [List.mapM_cons]
    exact (hf a s).andThen fun b s₁ ↦ (ih s₁).andThen fun bs s₂ ↦ pure fun hR hQ ↦
      hcons s s₁ s₂ a as b bs hQ hR

theorem report {name : Token} {error : ScopeError} {R : Unit → State → Prop} :
    Resolves (Scoping.report name error) s R := by
  rintro _ _ ⟨⟩ herrors
  cases herrors

end Resolves

/-- Binds a name in the innermost scope, if there is any. -/
def bound (name : String) (ready : Bool) : List Scope → List Scope
  | [] => []
  | scope :: outer => scope.insert name ready :: outer

theorem resolves_bind (name : String) (ready : Bool) (s : State) :
    Resolves (Scoping.bind name ready) s fun _ s' ↦
      s'.scopes = bound name ready s.scopes ∧ s'.setting = s.setting := by
  refine Resolves.modify ?_ ?_ <;> cases hscopes : s.scopes
  · rfl
  · rfl
  · exact ⟨hscopes, rfl⟩
  · exact ⟨rfl, rfl⟩

theorem resolves_declare (name : Token) (s : State) :
    Resolves (declare name) s fun _ s' ↦
      s'.scopes = bound name.lexeme false s.scopes ∧ s'.setting = s.setting ∧
        ∀ scope ∈ s.scopes.head?, scope.contains name.lexeme = false := by
  refine Resolves.get ?_
  split
  · exact (Resolves.report (R := fun _ _ ↦ False)).andThen fun _ s₁ ↦
      (resolves_bind _ _ _).mono fun _ _ _ h ↦ h.elim
  · rename_i hnew
    refine (resolves_bind _ _ s).mono fun _ s' h ↦ ⟨h.1, h.2, fun scope hscope ↦ ?_⟩
    rw [Option.mem_def.mp hscope] at hnew
    exact Bool.eq_false_iff.mpr hnew

theorem resolves_locate (use : Use) (r : Reference) (s : State) :
    Resolves (locate use r) s fun r' s' ↦
      r' = ⟨r.name, distance? r.name.lexeme s.scopes⟩ ∧ s'.scopes = s.scopes ∧
        s'.setting = s.setting := by
  refine Resolves.get ?_
  cases distance? r.name.lexeme s.scopes with
  | none => exact Resolves.pure ⟨rfl, rfl, rfl⟩
  | some d =>
    refine Resolves.andThen (R := fun _ s' ↦ s'.scopes = s.scopes ∧ s'.setting = s.setting)
      (Resolves.modify rfl ⟨rfl, rfl⟩) fun _ s₁ ↦ Resolves.pure fun h ↦ ⟨rfl, h⟩

theorem resolves_read (r : Reference) (s : State) :
    Resolves (read r) s fun r' s' ↦
      r' = ⟨r.name, distance? r.name.lexeme s.scopes⟩ ∧ s'.scopes = s.scopes ∧
        s'.setting = s.setting ∧
        ¬ (s.scopes.head?.any fun scope ↦
          decide (scope.get? r.name.lexeme = some false)) = true := by
  refine Resolves.get ?_
  split
  · exact (Resolves.report (R := fun _ _ ↦ False)).andThen fun _ s₁ ↦
      (resolves_locate _ _ _).mono fun _ _ _ h ↦ h.elim
  · rename_i hready
    exact (resolves_locate _ _ s).mono fun _ s' h ↦ ⟨h.1, h.2.1, h.2.2, hready⟩

/-- A part that may be absent. -/
theorem Resolves.optional {walk : α → Resolve β} {R : Option α → Option β → State → Prop}
    (hnone : R none none s) (hsome : ∀ a, Resolves (walk a) s fun b s' ↦ R (some a) (some b) s') :
    ∀ o : Option α, Resolves (optional walk o) s (R o)
  | none => Resolves.pure hnone
  | some a => (hsome a).map fun _ _ h ↦ h

/-! ## Expressions -/

/-- The walk is at a place, while some variable may be on the way. -/
structure State.At (s : State) (ctx : Context) (pending : Option String) : Prop where
  scopes : ctx.Matches pending s.scopes
  setting : s.setting = .subclass ↔ ctx.inherits = true
  ordinary : ∀ x, pending = some x → Ordinary x

/-- A step that only looks at the scopes. -/
def Stays (s s' : State) : Prop := s'.scopes = s.scopes ∧ s'.setting = s.setting

theorem Stays.place {s s' : State} (h : Stays s s') (hs : s.At ctx pending) : s'.At ctx pending :=
  ⟨h.1 ▸ hs.scopes, h.2 ▸ hs.setting, hs.ordinary⟩

theorem Stays.trans {s s₁ s' : State} (h : Stays s s₁) (h' : Stays s₁ s') : Stays s s' :=
  ⟨h'.1.trans h.1, h'.2.trans h.2⟩

variable {excused : String → Prop}

/-- What the walk makes of an expression. -/
def Fills (excused : String → Prop) (s : State) (e e' : Expr) (s' : State) : Prop :=
  Stays s s' ∧ ∀ ctx pending, s.At ctx pending → e.Shaped →
    (∀ x, pending = some x → e'.assigns x = true → excused x) → e'.Scoped excused ctx pending

/-- What the walk makes of a row of expressions. -/
def FillsRow (excused : String → Prop) (s : State) (es es' : List Expr) (s' : State) : Prop :=
  Stays s s' ∧ ∀ ctx pending, s.At ctx pending → (∀ e ∈ es, e.Shaped) →
    (∀ x, pending = some x → Expr.anyAssigns x es' = true → excused x) →
    ∀ e' ∈ es', e'.Scoped excused ctx pending

theorem excused_of_or {a b : String → Bool}
    (h : ∀ x, pending = some x → (a x || b x) = true → excused x) :
    (∀ x, pending = some x → a x = true → excused x) ∧
      ∀ x, pending = some x → b x = true → excused x :=
  ⟨fun x hx ha ↦ h x hx (by rw [ha, Bool.true_or]), fun x hx hb ↦ h x hx (by rw [hb, Bool.or_true])⟩

theorem resolves_arguments {walk : Expr → Resolve Expr}
    (h : ∀ e s, Resolves (walk e) s (Fills excused s e)) (es : List Expr) (s : State) :
    Resolves (es.mapM walk) s (FillsRow excused s es) := by
  refine Resolves.mapM h (fun s ↦ ⟨⟨rfl, rfl⟩, fun _ _ _ _ _ ↦ List.forall_mem_nil _⟩) ?_ es s
  rintro s s₁ s₂ e es e' es' ⟨hstays, hfirst⟩ ⟨hstays', hrest⟩
  refine ⟨hstays.trans hstays', fun ctx pending hs hshaped hexcused ↦ ?_⟩
  simp only [Expr.anyAssigns] at hexcused
  obtain ⟨hexcused, hexcused'⟩ := excused_of_or hexcused
  rw [List.forall_mem_cons] at hshaped
  exact List.forall_mem_cons.mpr ⟨hfirst ctx pending hs hshaped.1 hexcused,
    hrest ctx pending (hstays.place hs) hshaped.2 hexcused'⟩

/-- A variable that is ready has the right distance. -/
theorem scoped_var {s : State} {name : Token} (hs : s.At ctx pending) (hname : Ordinary name.lexeme)
    (hready : ¬ (s.scopes.head?.any fun scope ↦
      decide (scope.get? name.lexeme = some false)) = true) :
    (Expr.var ⟨name, distance? name.lexeme s.scopes⟩).Scoped excused ctx pending := by
  have hpending : pending ≠ some name.lexeme := fun h ↦ hready ((not_ready_iff hs.scopes).mpr h)
  exact .var hname hpending (distance?_of_ne hs.scopes hpending)

theorem scoped_assign {s : State} {name : Token} {value : Expr} (hs : s.At ctx pending)
    (hname : Ordinary name.lexeme) (hexcused : pending = some name.lexeme → excused name.lexeme)
    (hvalue : value.Scoped excused ctx pending) :
    (Expr.assign ⟨name, distance? name.lexeme s.scopes⟩ value).Scoped excused ctx pending := by
  by_cases hpending : pending = some name.lexeme
  · have hs := hs.scopes
    rw [hpending] at hs
    exact .assignPending hpending (hexcused hpending) (distance?_pending hs) hvalue
  · exact .assign hname hpending (distance?_of_ne hs.scopes hpending) hvalue

/-- A name that no program can declare is never on the way. -/
theorem distance?_reserved {s : State} (hs : s.At ctx pending) (hx : ¬ Ordinary x) :
    distance? x s.scopes = ctx.distance? x :=
  distance?_of_ne hs.scopes fun h ↦ hx (hs.ordinary x h)

section Compound

variable {nesting : Nat}

/-- An expression around another one. -/
theorem resolves_around (wrap : Expr → Expr) {e : Expr}
    (h : Resolves (expression nesting e) s (Fills excused s e))
    (hshaped : (wrap e).Shaped → e.Shaped)
    (hassigns : ∀ x e', (wrap e').assigns x = e'.assigns x)
    (hscoped : ∀ ctx pending e', e'.Scoped excused ctx pending →
      (wrap e').Scoped excused ctx pending) :
    Resolves (wrap <$> expression nesting e) s (Fills excused s (wrap e)) := by
  refine h.map fun e' s' ⟨hstays, h⟩ ↦ ⟨hstays, fun ctx pending hs hwrap hexcused ↦ ?_⟩
  simp only [hassigns] at hexcused
  exact hscoped ctx pending e' (h ctx pending hs (hshaped hwrap) hexcused)

/-- An expression around two others, which are walked over one after the other. -/
theorem resolves_around_two (join : Expr → Expr → Expr) {e₁ e₂ : Expr}
    (h : ∀ e s, Resolves (expression nesting e) s (Fills excused s e))
    (hshaped : (join e₁ e₂).Shaped → e₁.Shaped ∧ e₂.Shaped)
    (hassigns : ∀ x e₁' e₂', (e₁'.assigns x || e₂'.assigns x) = true →
      (join e₁' e₂').assigns x = true)
    (hscoped : ∀ ctx pending e₁' e₂', e₁'.Scoped excused ctx pending →
      e₂'.Scoped excused ctx pending → (join e₁' e₂').Scoped excused ctx pending) (s : State) :
    Resolves (do
      let e₁' ← expression nesting e₁
      return join e₁' (← expression nesting e₂)) s (Fills excused s (join e₁ e₂)) := by
  refine (h e₁ s).andThen fun e₁' s₁ ↦ (h e₂ s₁).andThen fun e₂' s₂ ↦
    Resolves.pure fun ⟨hstays₂, h₂⟩ ⟨hstays₁, h₁⟩ ↦ ⟨hstays₁.trans hstays₂,
      fun ctx pending hs hjoin hexcused ↦ ?_⟩
  obtain ⟨hshaped₁, hshaped₂⟩ := hshaped hjoin
  obtain ⟨hexcused₁, hexcused₂⟩ :=
    excused_of_or fun x hx hassigned ↦ hexcused x hx (hassigns x e₁' e₂' hassigned)
  exact hscoped ctx pending e₁' e₂' (h₁ ctx pending hs hshaped₁ hexcused₁)
    (h₂ ctx pending (hstays₁.place hs) hshaped₂ hexcused₂)

theorem resolves_assign {target : Reference} {value : Expr}
    (h : Resolves (expression nesting value) s (Fills excused s value)) :
    Resolves (expression (nesting + 1) (.assign target value)) s
      (Fills excused s (.assign target value)) := by
  refine h.andThen fun value' s₁ ↦ (resolves_locate _ target s₁).andThen fun r s₂ ↦
    Resolves.pure fun ⟨hr, hstays₂⟩ ⟨hstays₁, h⟩ ↦ ⟨hstays₁.trans hstays₂,
      fun ctx pending hs hshaped hexcused ↦ ?_⟩
  cases hshaped with
  | assign hname hshaped =>
    rw [hr] at hexcused ⊢
    simp only [Expr.assigns] at hexcused
    obtain ⟨htarget, hvalue⟩ := excused_of_or hexcused
    exact scoped_assign (hstays₁.place hs) hname
      (fun hx ↦ htarget target.name.lexeme hx (decide_eq_true rfl))
      (h ctx pending hs hshaped hvalue)

theorem resolves_call {callee : Expr} {paren : Token} {arguments : List Expr}
    (h : ∀ e s, Resolves (expression nesting e) s (Fills excused s e)) (s : State) :
    Resolves (expression (nesting + 1) (.call callee paren arguments)) s
      (Fills excused s (.call callee paren arguments)) := by
  refine (h callee s).andThen fun callee' s₁ ↦ (resolves_arguments h arguments s₁).andThen
    fun arguments' s₂ ↦ Resolves.pure fun ⟨hstays₂, h₂⟩ ⟨hstays₁, h₁⟩ ↦
      ⟨hstays₁.trans hstays₂, fun ctx pending hs hshaped hexcused ↦ ?_⟩
  cases hshaped with
  | call hcallee harguments =>
    simp only [Expr.assigns] at hexcused
    obtain ⟨hexcused₁, hexcused₂⟩ := excused_of_or hexcused
    exact .call (h₁ ctx pending hs hcallee hexcused₁)
      (h₂ ctx pending (hstays₁.place hs) harguments hexcused₂)

/-- The name of the instance is declared by no program, so it is never on the way. -/
theorem resolves_self {keyword : Reference} :
    Resolves (expression (nesting + 1) (.self keyword)) s (Fills excused s (.self keyword)) := by
  refine (resolves_locate _ keyword s).map fun r s' ⟨hr, hstays⟩ ↦
    ⟨hstays, fun ctx pending hs hshaped hexcused ↦ ?_⟩
  cases hshaped with
  | self hthis =>
    rw [hr]
    refine .self hthis ?_
    rw [hthis]
    exact distance?_reserved hs fun h ↦ h.1 rfl

/-- Outside of a subclass no superclass is looked for. -/
theorem resolves_inherited {keyword : Reference} {method : Token} :
    Resolves (expression (nesting + 1) (.inherited keyword method)) s
      (Fills excused s (.inherited keyword method)) := by
  refine Resolves.get ?_
  split
  · rename_i hsetting
    refine (resolves_locate _ keyword s).andThen fun r s' ↦ Resolves.pure
      fun ⟨hr, hstays⟩ ↦ ⟨hstays, fun ctx pending hs hshaped hexcused ↦ ?_⟩
    cases hshaped with
    | inherited hsuper =>
      rw [hr, hsuper]
      refine .inherited ?_
      rw [if_pos (hs.setting.mp hsetting)]
      exact distance?_reserved hs fun h ↦ h.2 rfl
  · rename_i hsetting
    refine Resolves.pure ⟨⟨rfl, rfl⟩, fun ctx pending hs hshaped hexcused ↦ ?_⟩
    refine .inherited ?_
    rw [if_neg fun h ↦ hsetting (hs.setting.mpr h)]

end Compound

theorem resolves_expression (nesting : Nat) (e : Expr) (s : State) :
    Resolves (expression nesting e) s (Fills excused s e) := by
  induction nesting generalizing e s with
  | zero => exact Resolves.throw
  | succ nesting ih =>
    cases e with
    | literal value => exact Resolves.pure ⟨⟨rfl, rfl⟩, fun _ _ _ _ _ ↦ .literal⟩
    | group inner =>
      refine resolves_around .group (ih inner s) (fun hshaped ↦ ?_) (fun _ _ ↦ rfl)
        fun _ _ _ ↦ .group
      cases hshaped with
      | group hshaped => exact hshaped
    | unary operator operand =>
      refine resolves_around (.unary operator) (ih operand s) (fun hshaped ↦ ?_) (fun _ _ ↦ rfl)
        fun _ _ _ ↦ .unary
      cases hshaped with
      | unary hshaped => exact hshaped
    | property object name =>
      refine resolves_around (.property · name) (ih object s) (fun hshaped ↦ ?_) (fun _ _ ↦ rfl)
        fun _ _ _ ↦ .property
      cases hshaped with
      | property hshaped => exact hshaped
    | binary left operator right =>
      refine resolves_around_two (.binary · operator ·) ih (fun hshaped ↦ ?_)
        (fun _ _ _ ↦ id) (fun _ _ _ _ ↦ .binary) s
      cases hshaped with
      | binary hleft hright => exact ⟨hleft, hright⟩
    | logical left operator right =>
      refine resolves_around_two (.logical · operator ·) ih (fun hshaped ↦ ?_)
        (fun _ _ _ ↦ id) (fun _ _ _ _ ↦ .logical) s
      cases hshaped with
      | logical hleft hright => exact ⟨hleft, hright⟩
    | setProperty object name value =>
      -- The value is walked over before the object.
      refine resolves_around_two (fun value object ↦ .setProperty object name value) ih
        (fun hshaped ↦ ?_) (fun _ _ _ h ↦ ?_)
        (fun _ _ _ _ hvalue hobject ↦ .setProperty hobject hvalue) s
      · cases hshaped with
        | setProperty hobject hvalue => exact ⟨hvalue, hobject⟩
      · rw [Expr.assigns, Bool.or_comm, h]
    | var target =>
      refine (resolves_read target s).map fun r s' ⟨hr, hscopes, hsetting, hready⟩ ↦
        ⟨⟨hscopes, hsetting⟩, fun ctx pending hs hshaped hexcused ↦ ?_⟩
      cases hshaped with
      | var hname =>
        rw [hr]
        exact scoped_var hs hname hready
    | assign target value => exact resolves_assign (ih value s)
    | call callee paren arguments => exact resolves_call ih s
    | self keyword => exact resolves_self
    | inherited keyword method => exact resolves_inherited

end Scoping

end Lox
