import Lox.Proofs.Methods.Finding

/-!
# Actions and the frames of methods

No action changes how a frame binds `this` or `super`: what is declared and assigned to has an
ordinary name. An action that makes a function or a class makes it in frames that fit, if it is
done at a place that fits.
-/

namespace Lox

namespace Eval

variable {α β : Type} {H : History} {M : Machine}

/-- Looking for a variable changes nothing. -/
theorem eq_of_lookup {M' : Machine} {r : Reference} {v : Value} (h : lookup r M = .ok v M') :
    M' = M := by
  cases hdistance : r.distance with
  | some d =>
    rw [lookup_of_distance hdistance, getAt_run] at h
    split at h <;> cases h
    rfl
  | none =>
    rw [lookup_of_global hdistance] at h
    split at h <;> cases h
    rfl

/-- The value of a variable depends on the frames and on the environment only. -/
theorem lookup_of_eq {M' : Machine} {r : Reference} {v : Value} (hframes : M'.frames = M.frames)
    (hcurrent : M'.current = M.current) (h : lookup r M = .ok v M) : lookup r M' = .ok v M' := by
  cases hdistance : r.distance with
  | some d =>
    rw [lookup_of_distance hdistance, getAt_run] at h ⊢
    rw [hframes, hcurrent]
    split at h <;> cases h
    rfl
  | none =>
    rw [lookup_of_global hdistance] at h ⊢
    rw [hframes]
    split at h <;> cases h
    rfl

/-- However a computation ends, the frames bind `this` and `super` as before, and everything fits:
what the machine holds then, and what the computation ends with. -/
def Upholds (H : History) (p : Eval α) (M : Machine) (post : α → Store Value → Prop) : Prop :=
  Ends p M (fun a M' ↦ M.LeadsTo H M' ∧ post a M'.frames)
    fun i M' ↦ M.LeadsTo H M' ∧ i.Fits H M'.frames

namespace Upholds

variable {post : α → Store Value → Prop}

theorem of_eq {p q : Eval α} (hpq : p M = q M) (h : Upholds H q M post) : Upholds H p M post := by
  rw [Upholds, Ends, hpq]
  exact h

theorem pure {a : α} (hM : M.Fits H) (h : post a M.frames) : Upholds H (Pure.pure a) M post :=
  ⟨hM.leadsTo, h⟩

theorem throw {i : Interrupt} (hM : M.Fits H) (h : i.Fits H M.frames) :
    Upholds H (MonadExcept.throw i : Eval α) M post := ⟨hM.leadsTo, h⟩

theorem fail {token : Token} {cause : Issue.Cause} (hM : M.Fits H) :
    Upholds H (Eval.fail token cause : Eval α) M post := throw hM trivial

/-- The second computation has to be known only where the first one leads. -/
theorem andThen {p : Eval α} {f : α → Eval β} {Q : β → Store Value → Prop} (h : Upholds H p M post)
    (hf : ∀ a M', p M = .ok a M' → Upholds H (f a) M' Q) : Upholds H (p >>= f) M Q := by
  refine Ends.bind (Ends.intro (fun a M' ha ↦ ?_) fun _ _ hi ↦ h.of_error hi)
  have hM' := (h.of_ok ha).1
  exact Ends.mono (hf a M' ha) (fun _ _ h ↦ ⟨hM'.trans h.1, h.2⟩) fun _ _ h ↦ ⟨hM'.trans h.1, h.2⟩

theorem bind {p : Eval α} {f : α → Eval β} {Q : β → Store Value → Prop} (h : Upholds H p M post)
    (hf : ∀ a M', M.LeadsTo H M' → post a M'.frames → Upholds H (f a) M' Q) :
    Upholds H (p >>= f) M Q :=
  andThen h fun a M' ha ↦ hf a M' (h.of_ok ha).1 (h.of_ok ha).2

theorem map {p : Eval α} {g : α → β} {Q : β → Store Value → Prop} (h : Upholds H p M post)
    (hg : ∀ {a s}, post a s → Q (g a) s) : Upholds H (g <$> p) M Q := by
  rw [← bind_pure_comp]
  exact bind h fun _ _ hM' ha ↦ pure hM'.fits (hg ha)

theorem get_bind {f : Machine → Eval β} {Q : β → Store Value → Prop} (h : Upholds H (f M) M Q) :
    Upholds H (MonadState.get >>= f) M Q := h

/-- Counting and printing leave the frames and the objects alone. -/
theorem leadsTo_of_eq {M' : Machine} (hM : M.Fits H) (hframes : M'.frames = M.frames)
    (hobjects : M'.objects = M.objects) (hcurrent : M'.current = M.current) : M.LeadsTo H M' := by
  refine ⟨⟨?_, ?_⟩, hcurrent, hframes ▸ .refl _⟩
  · rw [hframes]
    exact hM.frames
  · rw [hframes, hobjects]
    exact hM.objects

/-! ## Frames -/

theorem newFrame {outer : Environment} {b : Bindings Value} (hM : M.Fits H)
    (hb : ∀ x v, b.get? x = some v → v.Fits H M.frames) :
    Upholds H (newFrame outer b) M fun env s ↦
      env = M.frames.next :: outer ∧ s = M.frames.push b := by
  have hs := Store.precedes_push M.frames b
  refine ⟨⟨⟨fun id x v hv ↦ ?_, fun id x v hv ↦ (hM.objects id x v hv).mono hs⟩, rfl, hs⟩, rfl, rfl⟩
  exact ((Store.get?_of_push hv).elim (hb x v) (hM.frames id x v)).mono hs

/-- A value is bound to an ordinary name. -/
theorem leadsTo_bind (hM : M.Fits H) (id : RecordId) {x : String} (hx : Ordinary x) {v : Value}
    (hv : v.Fits H M.frames) : M.LeadsTo H { M with frames := M.frames.bind id x v } := by
  have hs := Store.precedes_bind M.frames id hx v
  refine ⟨⟨fun id' y w hw ↦ ?_, fun id' y w hw ↦ (hM.objects id' y w hw).mono hs⟩, rfl, hs⟩
  rcases Store.get?_of_bind hw with rfl | hw
  · exact hv.mono hs
  · exact (hM.frames id' y w hw).mono hs

theorem leadsTo_define (hM : M.Fits H) (env : Environment) {x : String} (hx : Ordinary x)
    {v : Value} (hv : v.Fits H M.frames) :
    M.LeadsTo H { M with frames := M.frames.define env x v } := by
  cases env with
  | nil => exact hM.leadsTo
  | cons frame outer => exact leadsTo_bind hM frame hx hv

theorem define (hM : M.Fits H) {x : String} (hx : Ordinary x) {v : Value} (hv : v.Fits H M.frames) :
    Upholds H (define x v) M fun _ _ ↦ True := ⟨leadsTo_define hM M.current hx hv, trivial⟩

theorem getAt (hM : M.Fits H) (d : Int) (x : String) :
    Upholds H (getAt d x) M fun v s ↦ v.Fits H s := by
  rw [Upholds, Ends, getAt_run]
  cases hv : M.frames.getAt M.current d x with
  | ok v =>
    obtain ⟨id, hbound⟩ := Store.exists_of_getAt hv
    exact ⟨hM.leadsTo, hM.frames id x v hbound⟩
  | error e => exact ⟨hM.leadsTo, trivial⟩

theorem lookup (hM : M.Fits H) (r : Reference) : Upholds H (lookup r) M fun v s ↦ v.Fits H s := by
  cases hdistance : r.distance with
  | some d =>
    rw [lookup_of_distance hdistance]
    exact getAt hM d _
  | none =>
    rw [Upholds, Ends, lookup_of_global hdistance]
    cases hv : M.frames.get? Machine.globals r.name.lexeme with
    | some v =>
      obtain ⟨id, hbound⟩ := Store.exists_of_get? hv
      exact ⟨hM.leadsTo, hM.frames id _ v hbound⟩
    | none => exact ⟨hM.leadsTo, trivial⟩

theorem assign (hM : M.Fits H) {r : Reference} (hr : Ordinary r.name.lexeme) {v : Value}
    (hv : v.Fits H M.frames) : Upholds H (assign r v) M fun _ _ ↦ True := by
  cases hdistance : r.distance with
  | some d =>
    rw [Upholds, Ends, assign_of_distance hdistance]
    cases M.frames.findAt M.current d r.name.lexeme with
    | ok found => exact ⟨leadsTo_bind hM found.1 hr hv, trivial⟩
    | error e => exact ⟨hM.leadsTo, trivial⟩
  | none =>
    rw [Upholds, Ends, assign_of_global hdistance]
    cases M.frames.frameOf? Machine.globals r.name.lexeme with
    | some frame => exact ⟨leadsTo_bind hM frame hr hv, trivial⟩
    | none => exact ⟨hM.leadsTo, trivial⟩

/-! ## Functions and classes -/

theorem newId (hM : M.Fits H) : Upholds H newId M fun _ s ↦ s = M.frames :=
  ⟨leadsTo_of_eq hM rfl rfl rfl, rfl⟩

theorem newFunction (hM : M.Fits H) {declaration : FunDecl} {env : Environment} {ctx : Context}
    (hknown : ∀ id, Closure.Known H M.frames ⟨id, declaration, env⟩) (hproper : ctx.Proper)
    (henv : M.frames.Fits ctx env) (hscoped : declaration.Scoped anyName ctx) :
    Upholds H (newFunction declaration env) M fun f s ↦ f.Fits H s :=
  bind (newId hM) fun id _ hM' _ ↦ pure hM'.fits
    ⟨(hknown id).mono hM'.frames, ctx, hproper, henv.mono hM'.frames, hscoped⟩

theorem isSome_get?_singleton (x y : String) (v : Value) :
    ((Bindings.ofList [(y, v)]).get? x).isSome = decide (x = y) := by
  change (if x = y then some v else none).isSome = decide (x = y)
  split <;> simp_all

/-- Binding a method makes the frame for `this` that was missing. -/
theorem bindMethod (hM : M.Fits H) {k : Class} {i : Instance} {name : String}
    {method : FunDecl × Environment} (hi : Value.Fits H M.frames (.instance i))
    (hk : ∀ d ∈ k.lineage, d ∈ i.class.lineage) (hmethod : k.findMethod? name = some method) :
    Upholds H (bindMethod method (.instance i)) M fun f s ↦ f.Fits H s := by
  obtain ⟨c, hc, hdeclaration, henv⟩ := Class.of_findMethod? hmethod
  obtain ⟨ctx, hresolved⟩ := (hi c (hk c hc)).resolved
  have hvalues : ∀ x v, (Bindings.ofList [("this", Value.instance i)]).get? x = some v →
      v.Fits H M.frames := by
    intro x v hv
    cases List.mem_singleton.mp (Bindings.mem_of_get?_ofList hv)
    exact hi
  refine bind (newFrame hM hvalues) fun env M' hM' ⟨heq, hframes⟩ ↦ ?_
  rw [henv] at heq
  refine newFunction hM'.fits (fun id ↦ ?_) (.method hresolved.proper) ?_
    (hresolved.methods name method.1 hdeclaration)
  · refine .method (c := c) (i := i) ⟨⟨name, hdeclaration⟩, hk c hc, _, heq, ?_⟩ .itself (.refl _ _)
    rw [hframes, Store.record_push_self]
    rfl
  · rw [heq, hframes]
    exact hresolved.fits.push fun x _ ↦ isSome_get?_singleton x "this" (.instance i)

/-- Declaring a class makes the frame that binds its superclass. -/
theorem defineClass {running : Option Closure} {ctx : Context} (hM : M.At H running ctx)
    {name : String} (hname : Ordinary name) {superclass : Option Class} {methods : List FunDecl}
    (hdeclared : ∀ c : Class, c.name = name →
      c.methods = .ofList (methods.map fun m ↦ (m.name.lexeme, m)) →
      c.environment = M.frames.next :: M.current → c.superclass = superclass → c.Declared H)
    (hsuper : ∀ c ∈ superclass, ∀ d ∈ c.lineage, d.Fits H M.frames)
    (hmethods : ∀ f ∈ methods, f.Scoped anyName
      (.self :: .parent superclass.isSome :: ctx.declare name)) :
    Upholds H (defineClass name superclass methods) M fun _ _ ↦ True := by
  have hvalues : ∀ x v,
      (Bindings.ofList (superclass.elim [] fun c ↦ [("super", Value.class c)])).get? x = some v →
        v.Fits H M.frames := by
    intro x v hv
    cases superclass with
    | none => cases hv
    | some c =>
      cases List.mem_singleton.mp (Bindings.mem_of_get?_ofList hv)
      exact hsuper c rfl
  rw [defineClass_eq]
  refine bind (get_bind (newFrame hM.fits hvalues)) fun env M₁ hM₁ ⟨henv, hs⟩ ↦
    bind (newId hM₁.fits) fun id M₂ hM₂ hs' ↦ define hM₂.fits hname ?_
  have hclass : Class.Fits H M₂.frames ⟨id, name, superclass,
      .ofList (methods.map fun m ↦ (m.name.lexeme, m)), env⟩ := by
    refine ⟨hdeclared _ rfl rfl henv rfl, ctx.declare name, hM.proper.declare hname, ?_,
      fun frame hframe ↦ ?_, fun x f hf ↦ ?_⟩
    · rw [hs', henv, hs]
      refine (hM.current.declare hname).push fun x _ ↦ ?_
      cases superclass with
      | none => rfl
      | some c => exact isSome_get?_singleton x "super" (.class c)
    · rw [henv] at hframe
      obtain rfl := Option.some.inj hframe
      rw [hs', hs, Store.record_push_self]
      cases superclass <;> rfl
    · obtain ⟨m, hm, heq⟩ := List.mem_map.mp (Bindings.mem_of_get?_ofList hf)
      exact (Prod.mk.inj heq).2 ▸ hmethods m hm
  have hold : ∀ c ∈ superclass, ∀ d ∈ c.lineage, d.Fits H M₂.frames := fun c hc d hd ↦
    (hsuper c hc d hd).mono (hM₁.trans hM₂).frames
  cases superclass with
  | none => exact List.forall_mem_singleton.mpr hclass
  | some c => exact List.forall_mem_cons.mpr ⟨hclass, hold c rfl⟩

theorem superclass (hM : M.Fits H) (r : Reference) :
    Upholds H (superclass r) M fun c s ↦ (∀ d ∈ c.lineage, d.Fits H s) ∧ s = M.frames ∧
      Eval.lookup r M = .ok (.class c) M := by
  have hlookup : Upholds H (Eval.lookup r) M fun v s ↦ v.Fits H s ∧ s = M.frames ∧
      Eval.lookup r M = .ok v M := by
    refine Ends.intro (fun v M' hrun ↦ ?_) fun _ _ hrun ↦ (lookup hM r).of_error hrun
    obtain rfl := eq_of_lookup hrun
    exact ⟨hM.leadsTo, ((lookup hM r).of_ok hrun).2, rfl, hrun⟩
  refine bind hlookup fun v _ hM' hv ↦ ?_
  cases v with
  | «class» c => exact pure hM'.fits hv
  | _ => exact fail hM'.fits

/-! ## Instances -/

theorem newInstance (hM : M.Fits H) (c : Class) :
    Upholds H (newInstance c) M fun i s ↦ i.class = c ∧ s = M.frames := by
  refine ⟨⟨⟨hM.frames, fun id x v hv ↦ ?_⟩, rfl, .refl _⟩, rfl, rfl⟩
  exact (Store.get?_of_push hv).elim (fun h ↦ by cases h) (hM.objects id x v)

theorem property (hM : M.Fits H) {object : Value} (name : Token)
    (hobject : object.Fits H M.frames) :
    Upholds H (property object name) M fun v s ↦ v.Fits H s := by
  rw [Eval.property.eq_def]
  cases object with
  | «instance» i =>
    refine get_bind ?_
    cases hfield : (M.objects.record i.fields).get? name.lexeme with
    | some v => exact pure hM (hM.objects _ _ v hfield)
    | none =>
      cases hmethod : i.class.findMethod? name.lexeme with
      | some method =>
        exact map (bindMethod hM hobject (fun _ hd ↦ hd) hmethod) fun h ↦ h
      | none => exact fail hM
  | _ => exact fail hM

theorem setProperty (hM : M.Fits H) {object v : Value} (name : Token) (hv : v.Fits H M.frames) :
    Upholds H (setProperty object name v) M fun _ _ ↦ True := by
  cases object with
  | «instance» i =>
    refine ⟨⟨⟨hM.frames, fun id x w hw ↦ ?_⟩, rfl, .refl _⟩, trivial⟩
    change ((M.objects.bind i.fields name.lexeme v).record id).get? x = some w at hw
    rcases Store.get?_of_bind hw with rfl | hw
    · exact hv
    · exact hM.objects id x w hw
  | _ => exact fail hM

theorem inherited {running : Option Closure} {ctx : Context} {pending : Option String}
    (hM : M.At H running ctx) {keyword : Reference} {method : Token}
    (hscoped : (Expr.inherited keyword method).Scoped anyName ctx pending) :
    Upholds H (inherited keyword method) M fun v s ↦ v.Fits H s := by
  rcases hM.finds_or with ⟨f, c, i, d, hmethod, hfinds⟩ | hnone
  · cases hparent : c.superclass with
    | none =>
      exact of_eq (hfinds.inherited_of_none hscoped hparent) (fail hM.fits)
    | some parent =>
      obtain ⟨frame, -, hthis⟩ := hmethod.bound
      have hi : Value.Fits H M.frames (.instance i) := hM.fits.frames frame _ _ hthis
      have habove : ∀ e ∈ parent.lineage, e ∈ i.class.lineage := fun e he ↦
        Class.lineage_subset hmethod.above e (Class.mem_lineage_of_superclass hparent e he)
      refine of_eq (hfinds.inherited_of_some hscoped hparent) ?_
      cases hfound : parent.findMethod? method.lexeme with
      | some m => exact map (bindMethod hM.fits hi habove hfound) fun h ↦ h
      | none => exact fail hM.fits
  · cases hscoped with
    | inherited hdistance =>
      rw [hnone] at hdistance
      rw [Eval.inherited, show keyword.distance = none from hdistance]
      exact fail hM.fits

/-! ## Other actions -/

theorem printLine (hM : M.Fits H) (line : String) : Upholds H (printLine line) M fun _ _ ↦ True :=
  ⟨leadsTo_of_eq hM rfl rfl rfl, trivial⟩

theorem step (hM : M.Fits H) (host : Host) : Upholds H (step host) M fun _ s ↦ s = M.frames :=
  ends_step ⟨leadsTo_of_eq hM rfl rfl rfl, rfl⟩ fun _ ↦ ⟨leadsTo_of_eq hM rfl rfl rfl, trivial⟩

theorem checkCall (hM : M.Fits H) (callee : Value) (paren : Token) (given : Nat) :
    Upholds H (checkCall callee paren given) M fun _ _ ↦ True := by
  rw [Eval.checkCall.eq_def]
  cases callee.signature? with
  | none => exact fail hM
  | some signature =>
    dsimp only
    split
    · exact pure hM trivial
    · exact fail hM

theorem callNative (hM : M.Fits H) (host : Host) (n : Native) (arguments : List Value) :
    Upholds H (callNative host n arguments) M fun v s ↦ v.Fits H s := by
  cases n with
  | clock => exact ⟨leadsTo_of_eq hM rfl rfl rfl, trivial⟩
  | toString => exact pure hM trivial

/-- The value of an operator holds no functions and no classes. -/
theorem operator {result : Except Issue Value} (hM : M.Fits H)
    (h : ∀ v, result = .ok v → v.environments = []) :
    Upholds H (ofExcept .issue result) M fun v s ↦ v.Fits H s := by
  cases result with
  | ok v => exact pure hM (Value.fits_of_environments (h v rfl))
  | error i => exact throw hM trivial

end Upholds

end Eval

end Lox
