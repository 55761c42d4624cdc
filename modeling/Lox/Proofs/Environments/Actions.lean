import Lox.Proofs.Environments.Links

/-!
# Actions along a table of links

No action changes the environment around a frame that exists. Those that make a frame add to the
table, and all others leave it as it is. What an action takes from the machine goes along the table,
and so does what it puts into the machine, if what it is given does.
-/

namespace Lox

namespace Eval

variable {α β : Type} {links links' : List Environment} {M : Machine}

/-- However a computation ends, the table has only grown. The machine goes along it then, and so
does what the computation ends with. -/
def Keeps (links : List Environment) (p : Eval α) (M : Machine)
    (post : List Environment → α → Prop) : Prop :=
  Ends p M (fun a M' ↦ M'.Extends links fun links' ↦ post links' a)
    fun i M' ↦ M'.Extends links fun links' ↦ AllAlong links' i.environments

namespace Keeps

variable {post post' : List Environment → α → Prop}

theorem mono {p : Eval α} (h : Keeps links' p M post) (hlinks : links <+: links')
    (hpost : ∀ {table a}, post table a → post' table a) : Keeps links p M post' :=
  Ends.mono h (fun _ _ h ↦ h.mono hlinks hpost) fun _ _ h ↦ h.mono hlinks fun h ↦ h

theorem pure {a : α} (hM : M.Linked links) (h : post links a) :
    Keeps links (Pure.pure a) M post := hM.extends h

theorem throw {i : Interrupt} (hM : M.Linked links) (h : AllAlong links i.environments) :
    Keeps links (MonadExcept.throw i : Eval α) M post := hM.extends h

theorem fail {token : Token} {cause : Issue.Cause} (hM : M.Linked links) :
    Keeps links (Eval.fail token cause : Eval α) M post := throw hM .nil

theorem bind {p : Eval α} {f : α → Eval β} {Q : List Environment → β → Prop}
    (h : Keeps links p M post) (hf : ∀ links' a M', links <+: links' → M'.Linked links' →
      post links' a → Keeps links' (f a) M' Q) : Keeps links (p >>= f) M Q := by
  refine Ends.bind (Ends.mono h (fun a M' ha ↦ ?_) fun _ _ h ↦ h)
  obtain ⟨links', hlinks, hM', hholds⟩ := ha
  exact (hf links' a M' hlinks hM' hholds).mono hlinks fun h ↦ h

theorem map {p : Eval α} {g : α → β} {Q : List Environment → β → Prop} (h : Keeps links p M post)
    (hg : ∀ {table a}, post table a → Q table (g a)) : Keeps links (g <$> p) M Q := by
  rw [← bind_pure_comp]
  exact bind h fun _ _ _ _ hM' ha ↦ pure hM' (hg ha)

theorem get (hM : M.Linked links) :
    Keeps links (MonadState.get : Eval Machine) M fun links M ↦ M.Linked links := hM.extends hM

/-! ## Frames -/

theorem newFrame {outer : Environment} {b : Bindings Value} (hM : M.Linked links)
    (houter : Along links outer) (hb : ∀ x v, b.get? x = some v → AllAlong links v.environments) :
    Keeps links (newFrame outer b) M Along := by
  have hlinks : links <+: links ++ [outer] := List.prefix_append links [outer]
  refine ⟨links ++ [outer], hlinks, ⟨?_, hM.current.mono hlinks, (hM.frames.push hb).mono hlinks,
    hM.objects.mono hlinks⟩, ?_⟩
  · rw [Store.next_push, ← hM.size, List.length_append, List.length_singleton]
  · rw [← hM.size]
    exact houter.push

theorem define (hM : M.Linked links) (x : String) {v : Value} (hv : AllAlong links v.environments) :
    Keeps links (define x v) M fun _ _ ↦ True :=
  Machine.Linked.extends (hM.withFrames (Store.next_define ..) (hM.frames.define M.current x hv))
    trivial

theorem getAt (hM : M.Linked links) (d : Int) (x : String) :
    Keeps links (getAt d x) M fun links v ↦ AllAlong links v.environments := by
  rw [Keeps, Ends, getAt_run]
  cases hv : M.frames.getAt M.current d x with
  | ok v =>
    obtain ⟨id, hbound⟩ := Store.exists_of_getAt hv
    exact hM.extends (hM.frames id x v hbound)
  | error e => exact hM.extends .nil

theorem lookup (hM : M.Linked links) (r : Reference) :
    Keeps links (lookup r) M fun links v ↦ AllAlong links v.environments := by
  cases hdistance : r.distance with
  | some d =>
    rw [lookup_of_distance hdistance]
    exact getAt hM d _
  | none =>
    rw [Keeps, Ends, lookup_of_global hdistance]
    cases hv : M.frames.get? Machine.globals r.name.lexeme with
    | some v =>
      obtain ⟨id, hbound⟩ := Store.exists_of_get? hv
      exact hM.extends (hM.frames id _ v hbound)
    | none => exact hM.extends .nil

theorem assign (hM : M.Linked links) (r : Reference) {v : Value}
    (hv : AllAlong links v.environments) : Keeps links (assign r v) M fun _ _ ↦ True := by
  have hbind : ∀ frame, ({ M with frames := M.frames.bind frame r.name.lexeme v } : Machine).Linked
      links := fun frame ↦ hM.withFrames (Store.next_bind ..) (hM.frames.bind frame _ hv)
  cases hdistance : r.distance with
  | some d =>
    rw [Keeps, Ends, assign_of_distance hdistance]
    cases M.frames.findAt M.current d r.name.lexeme with
    | ok found => exact (hbind found.1).extends trivial
    | error e => exact hM.extends .nil
  | none =>
    rw [Keeps, Ends, assign_of_global hdistance]
    cases M.frames.frameOf? Machine.globals r.name.lexeme with
    | some frame => exact (hbind frame).extends trivial
    | none => exact hM.extends .nil

/-! ## Functions and classes -/

theorem newId (hM : M.Linked links) : Keeps links newId M fun _ _ ↦ True :=
  Machine.Linked.extends ⟨hM.size, hM.current, hM.frames, hM.objects⟩ trivial

theorem newFunction (hM : M.Linked links) (declaration : FunDecl) {env : Environment}
    (henv : Along links env) :
    Keeps links (newFunction declaration env) M fun links f ↦ Along links f.environment :=
  bind (newId hM) fun _ _ _ hlinks hM _ ↦ pure hM (henv.mono hlinks)

theorem bindMethod (hM : M.Linked links) {method : FunDecl × Environment} {self : Value}
    (hmethod : Along links method.2) (hself : AllAlong links self.environments) :
    Keeps links (bindMethod method self) M fun links f ↦ Along links f.environment := by
  refine bind (newFrame hM hmethod fun x v hv ↦ ?_) fun _ _ _ _ hM henv ↦ newFunction hM _ henv
  cases List.mem_singleton.mp (Bindings.mem_of_get?_ofList hv)
  exact hself

theorem defineClass (hM : M.Linked links) (name : String) {superclass : Option Class}
    (methods : List FunDecl) (hsuper : ∀ c ∈ superclass, AllAlong links c.environments) :
    Keeps links (defineClass name superclass methods) M fun _ _ ↦ True := by
  rw [defineClass_eq]
  refine bind (bind (get hM) fun _ _ _ hlinks hM h ↦ newFrame hM h.current fun x v hv ↦ ?_)
    fun _ env _ hlinks hM henv ↦ bind (newId hM) fun _ id _ hlinks' hM _ ↦ define hM name ?_
  · have hmem := Bindings.mem_of_get?_ofList hv
    cases superclass with
    | none => cases hmem
    | some c =>
      cases List.mem_singleton.mp hmem
      exact (hsuper c rfl).mono hlinks
  · have henv' := henv.mono hlinks'
    cases superclass with
    | none => exact .singleton henv'
    | some c => exact allAlong_cons.mpr ⟨henv', (hsuper c rfl).mono (hlinks.trans hlinks')⟩

theorem superclass (hM : M.Linked links) (r : Reference) :
    Keeps links (superclass r) M fun links c ↦ AllAlong links c.environments := by
  refine bind (lookup hM r) fun _ v _ _ hM hv ↦ ?_
  cases v with
  | «class» c => exact pure hM hv
  | _ => exact fail hM

/-! ## Instances -/

theorem newInstance (hM : M.Linked links) {c : Class} (hc : AllAlong links c.environments) :
    Keeps links (newInstance c) M fun links i ↦ AllAlong links i.class.environments :=
  Machine.Linked.extends ⟨hM.size, hM.current, hM.frames, hM.objects.push nofun⟩ hc

theorem property (hM : M.Linked links) {object : Value} (name : Token)
    (hobject : AllAlong links object.environments) :
    Keeps links (property object name) M fun links v ↦ AllAlong links v.environments := by
  rw [Eval.property.eq_def]
  cases object with
  | «instance» i =>
    refine bind (get hM) fun _ M _ hlinks hM' h ↦ ?_
    cases hfield : (M.objects.record i.fields).get? name.lexeme with
    | some v => exact pure hM' (h.objects _ _ v hfield)
    | none =>
      cases hmethod : i.class.findMethod? name.lexeme with
      | some method =>
        refine map (bindMethod hM' ?_ (hobject.mono hlinks)) fun h ↦ ?_
        · exact (hobject.mono hlinks) _ (Class.mem_environments hmethod)
        · exact AllAlong.singleton h
      | none => exact fail hM'
  | _ => exact fail hM

theorem setProperty (hM : M.Linked links) {object v : Value} (name : Token)
    (hv : AllAlong links v.environments) :
    Keeps links (setProperty object name v) M fun _ _ ↦ True := by
  cases object with
  | «instance» i =>
    exact Machine.Linked.extends
      ⟨hM.size, hM.current, hM.frames, hM.objects.bind i.fields name.lexeme hv⟩ trivial
  | _ => exact fail hM

theorem inherited (hM : M.Linked links) (keyword : Reference) (method : Token) :
    Keeps links (inherited keyword method) M fun links v ↦ AllAlong links v.environments := by
  rw [Eval.inherited.eq_def]
  cases keyword.distance with
  | none => exact fail hM
  | some d =>
    refine bind (getAt hM _ _) fun _ parent _ _ hM hparent ↦
      bind (getAt hM _ _) fun _ self _ hlinks hM hself ↦ ?_
    cases parent with
    | «class» c =>
      dsimp only
      cases hmethod : c.findMethod? method.lexeme with
      | some m =>
        refine map (bindMethod hM ?_ hself) fun h ↦ AllAlong.singleton h
        exact (hparent.mono hlinks) _ (Class.mem_environments hmethod)
      | none => exact fail hM
    | _ => exact throw hM .nil

/-! ## Other actions -/

theorem printLine (hM : M.Linked links) (line : String) :
    Keeps links (printLine line) M fun _ _ ↦ True :=
  Machine.Linked.extends ⟨hM.size, hM.current, hM.frames, hM.objects⟩ trivial

theorem step (hM : M.Linked links) (host : Host) : Keeps links (step host) M fun _ _ ↦ True := by
  have hstepped : ({ M with steps := M.steps + 1 } : Machine).Linked links :=
    ⟨hM.size, hM.current, hM.frames, hM.objects⟩
  exact ends_step (hstepped.extends trivial) fun _ ↦ hstepped.extends .nil

theorem checkCall (hM : M.Linked links) (callee : Value) (paren : Token) (given : Nat) :
    Keeps links (checkCall callee paren given) M fun _ _ ↦ True := by
  rw [Eval.checkCall.eq_def]
  cases callee.signature? with
  | none => exact fail hM
  | some signature =>
    dsimp only
    split
    · exact pure hM trivial
    · exact fail hM

theorem callNative (hM : M.Linked links) (host : Host) (n : Native) (arguments : List Value) :
    Keeps links (callNative host n arguments) M fun links v ↦ AllAlong links v.environments := by
  cases n with
  | clock => exact Machine.Linked.extends ⟨hM.size, hM.current, hM.frames, hM.objects⟩ .nil
  | toString => exact pure hM .nil

/-- The value of an operator holds no environments. -/
theorem operator {result : Except Issue Value} (hM : M.Linked links)
    (h : ∀ v, result = .ok v → v.environments = []) :
    Keeps links (ofExcept .issue result) M fun links v ↦ AllAlong links v.environments := by
  cases result with
  | ok v =>
    refine pure hM ?_
    rw [h v rfl]
    exact .nil
  | error i => exact throw hM .nil

end Keeps

end Eval

end Lox
