import Lox.Proofs.Frames.Charts
import Lox.Proofs.Methods.Actions

/-!
# Actions on a chart

An action that makes a frame adds its origin to the chart, and the others leave the chart as it is.
Declaring a class is one action in this respect: its frame is made before the class has its
identity, so only both together are in a chart.
-/

namespace Lox

/-- The environment is as it was, and an extension of an earlier chart tells of the machine and of
more. -/
def Machine.Extended (H : History) (chart : Chart) (env : Environment) (M : Machine)
    (P : Chart → Prop) : Prop :=
  M.current = env ∧ ∃ chart', chart <+: chart' ∧ M.Charted H chart' ∧ P chart'

namespace Machine

variable {H : History} {chart chart' : Chart} {env : Environment} {M : Machine}
  {P Q : Chart → Prop}

theorem Extended.mono (h : M.Extended H chart' env P) (hchart : chart <+: chart')
    (hP : ∀ {table}, P table → Q table) : M.Extended H chart env Q := by
  obtain ⟨hcurrent, table, htable, hM, hholds⟩ := h
  exact ⟨hcurrent, table, hchart.trans htable, hM, hP hholds⟩

theorem Charted.extended (h : M.Charted H chart) (hcurrent : M.current = env) (hP : P chart) :
    M.Extended H chart env P := ⟨hcurrent, chart, List.prefix_rfl, h, hP⟩

end Machine

namespace Eval

variable {α β : Type} {H : History} {chart chart' : Chart} {M : Machine}

/-- However a computation ends, the environment is current again that was, the chart has only grown,
and it tells of the machine and of what the computation ends with. -/
def Charts (H : History) (chart : Chart) (p : Eval α) (M : Machine)
    (post : Chart → α → Prop) : Prop :=
  Ends p M (fun a M' ↦ M'.Extended H chart M.current (post · a))
    fun i M' ↦ M'.Extended H chart M.current i.Charted

namespace Charts

variable {post post' : Chart → α → Prop}

theorem mono {p : Eval α} (h : Charts H chart' p M post) (hchart : chart <+: chart')
    (hpost : ∀ {table a}, post table a → post' table a) : Charts H chart p M post' :=
  Ends.mono h (fun _ _ h ↦ h.mono hchart hpost) fun _ _ h ↦ h.mono hchart fun h ↦ h

theorem pure {a : α} (hM : M.Charted H chart) (h : post chart a) :
    Charts H chart (Pure.pure a) M post := hM.extended rfl h

theorem throw {i : Interrupt} (hM : M.Charted H chart) (h : i.Charted chart) :
    Charts H chart (MonadExcept.throw i : Eval α) M post := hM.extended rfl h

theorem fail {token : Token} {cause : Issue.Cause} (hM : M.Charted H chart) :
    Charts H chart (Eval.fail token cause : Eval α) M post := throw hM trivial

theorem bind {p : Eval α} {f : α → Eval β} {Q : Chart → β → Prop} (h : Charts H chart p M post)
    (hf : ∀ chart' a M', chart <+: chart' → M'.current = M.current → M'.Charted H chart' →
      post chart' a → Charts H chart' (f a) M' Q) : Charts H chart (p >>= f) M Q := by
  refine Ends.bind (Ends.mono h (fun a M' ha ↦ ?_) fun _ _ h ↦ h)
  obtain ⟨hcurrent, chart', hchart, hM', hholds⟩ := ha
  have hrest := (hf chart' a M' hchart hcurrent hM' hholds).mono hchart fun h ↦ h
  rwa [Charts, hcurrent] at hrest

theorem map {p : Eval α} {g : α → β} {Q : Chart → β → Prop} (h : Charts H chart p M post)
    (hg : ∀ {table a}, post table a → Q table (g a)) : Charts H chart (g <$> p) M Q := by
  rw [← bind_pure_comp]
  exact bind h fun _ _ _ _ _ hM' ha ↦ pure hM' (hg ha)

theorem get_bind {f : Machine → Eval β} {Q : Chart → β → Prop} (h : Charts H chart (f M) M Q) :
    Charts H chart (MonadState.get >>= f) M Q := h

/-! ## Variables -/

/-- A value is declared in a scope that admits the name. -/
theorem define (hM : M.Charted H chart) {x : String} (hx : Ordinary x)
    (hdeclares : chart.Declares M.current x) {v : Value} (hv : v.Charted chart) :
    Charts H chart (define x v) M fun _ _ ↦ True := by
  obtain ⟨id, outer, origin, hcurrent, horigin, hadmits⟩ := hdeclares
  rw [Charts, Ends, define_of_current hcurrent]
  refine (hM.bind hx hv fun o ho ↦ .inr ?_).extended rfl trivial
  rwa [Option.some.inj (ho.symm.trans horigin)]

theorem getAt (hM : M.Charted H chart) (d : Int) (x : String) :
    Charts H chart (getAt d x) M fun chart v ↦
      v.Charted chart ∧ ∃ id, (M.frames.record id).get? x = some v := by
  rw [Charts, Ends, getAt_run]
  cases hv : M.frames.getAt M.current d x with
  | ok v =>
    obtain ⟨id, hbound⟩ := Store.exists_of_getAt hv
    exact hM.extended rfl ⟨hM.frames id x v hbound, id, hbound⟩
  | error e => exact hM.extended rfl trivial

theorem lookup (hM : M.Charted H chart) (r : Reference) :
    Charts H chart (lookup r) M fun chart v ↦ v.Charted chart := by
  cases hdistance : r.distance with
  | some d =>
    rw [lookup_of_distance hdistance]
    exact (getAt hM d _).mono List.prefix_rfl fun h ↦ h.1
  | none =>
    rw [Charts, Ends, lookup_of_global hdistance]
    cases hv : M.frames.get? Machine.globals r.name.lexeme with
    | some v =>
      obtain ⟨id, hbound⟩ := Store.exists_of_get? hv
      exact hM.extended rfl (hM.frames id _ v hbound)
    | none => exact hM.extended rfl trivial

/-- A value is assigned where the name is bound already. -/
theorem assign (hM : M.Charted H chart) {r : Reference} (hr : Ordinary r.name.lexeme) {v : Value}
    (hv : v.Charted chart) : Charts H chart (assign r v) M fun _ _ ↦ True := by
  have hbind : ∀ {frame w}, (M.frames.record frame).get? r.name.lexeme = some w →
      ({ M with frames := M.frames.bind frame r.name.lexeme v } : Machine).Charted H chart :=
    fun hbound ↦ hM.bind hr hv fun _ _ ↦ .inl (Bindings.mem_names_of_get? hbound)
  cases hdistance : r.distance with
  | some d =>
    rw [Charts, Ends, assign_of_distance hdistance]
    cases hfound : M.frames.findAt M.current d r.name.lexeme with
    | ok found => exact (hbind (Store.get?_of_findAt hfound)).extended rfl trivial
    | error e => exact hM.extended rfl trivial
  | none =>
    rw [Charts, Ends, assign_of_global hdistance]
    cases hframe : M.frames.frameOf? Machine.globals r.name.lexeme with
    | some frame =>
      have hcontains : (M.frames.record frame).contains r.name.lexeme = true :=
        List.find?_some (p := fun frame ↦ (M.frames.record frame).contains r.name.lexeme) hframe
      obtain ⟨w, hw⟩ := Option.isSome_iff_exists.mp hcontains
      exact (hbind hw).extended rfl trivial
    | none => exact hM.extended rfl trivial

/-! ## Frames, functions and classes -/

/-- A frame is made for something else than a class. -/
theorem newFrame (hM : M.Charted H chart) (origin : Origin) {b : Bindings Value}
    (houter : chart.Reaches origin.outer) (horigin : origin.Genuine H chart M.frames.next)
    (hfills : origin.purpose.Fills b) (hb : ∀ x v, b.get? x = some v → v.Charted chart)
    (hclass : ∀ c, origin.purpose ≠ .methods c) :
    Charts H chart (newFrame origin.outer b) M fun chart' env ↦ chart'.Reaches env ∧
      ∃ id, env = id :: origin.outer ∧ chart'[id]? = some origin := by
  have hpushed : (chart ++ [origin])[M.frames.next]? = some origin := by
    rw [← hM.size, List.getElem?_concat_length]
  refine ⟨rfl, chart ++ [origin], List.prefix_append chart [origin],
    hM.push origin b _ houter horigin hfills hb (Nat.le_refl _) fun c hc ↦ (hclass c hc).elim,
    ?_, _, rfl, hpushed⟩
  have houter' := houter.mono (List.prefix_append chart [origin])
  exact ⟨⟨Chart.getElem?_links hpushed, houter'.along⟩,
    houter'.globals.trans (List.suffix_cons _ _)⟩

theorem newId (hM : M.Charted H chart) : Charts H chart newId M fun _ _ ↦ True :=
  ⟨rfl, chart, List.prefix_rfl, hM.of_eq rfl rfl rfl (Nat.le_succ _), trivial⟩

theorem newFunction (hM : M.Charted H chart) (declaration : FunDecl) {env : Environment}
    (henv : chart.Reaches env) :
    Charts H chart (newFunction declaration env) M fun chart f ↦
      (Value.function f).Charted chart :=
  bind (newId hM) fun _ _ _ hchart _ hM _ ↦ pure hM (henv.mono hchart)

/-- A method that is found is bound in a frame inside of that of the class that has it. -/
theorem bindMethod (hM : M.Charted H chart) {k : Class} {i : Instance} {name : String}
    {method : FunDecl × Environment} (hk : chart.HasClass k) (hi : chart.HasClass i.class)
    (hmethod : k.findMethod? name = some method) :
    Charts H chart (bindMethod method (.instance i)) M fun chart f ↦
      (Value.function f).Charted chart := by
  obtain ⟨c, hc, hdeclaration, henv⟩ := Class.of_findMethod? hmethod
  have hclass := hM.sound.hasClass_of_mem_lineage hk hc
  have hvalues : ∀ x v, (Bindings.ofList [("this", Value.instance i)]).get? x = some v →
      v.Charted chart := by
    intro x v hv
    cases List.mem_singleton.mp (Bindings.mem_of_get?_ofList hv)
    exact hi
  have hframe := newFrame hM ⟨c.environment, .bound c method.1 i⟩
    (hM.sound.reaches_of_hasClass hclass) (.bound hclass hdeclaration hi) rfl hvalues
    fun _ h ↦ by cases h
  rw [Eval.bindMethod, henv]
  exact bind hframe fun _ _ _ _ _ hM henv ↦ newFunction hM _ henv.1

theorem defineClass_run {frame : RecordId} {outer : Environment}
    (hcurrent : M.current = frame :: outer) (name : String) (superclass : Option Class)
    (methods : List FunDecl) :
    Eval.defineClass name superclass methods M = .ok () { M with
      frames := (M.frames.push
        (.ofList (superclass.elim [] fun d ↦ [("super", .class d)]))).bind frame name
          (.class ⟨M.nextId, name, superclass, .ofList (methods.map fun m ↦ (m.name.lexeme, m)),
            M.frames.next :: M.current⟩)
      nextId := M.nextId + 1 } := by
  have hpushed : ({ M with
      frames := M.frames.push (.ofList (superclass.elim [] fun d ↦ [("super", .class d)]))
      nextId := M.nextId + 1 } : Machine).current = frame :: outer := hcurrent
  rw [defineClass_eq]
  exact define_of_current hpushed name _

/-- Declaring a class makes the frame of its methods, which is only for this class. -/
theorem defineClass (hM : M.Charted H chart) {name : String} (hname : Ordinary name)
    (hdeclares : chart.Declares M.current name) {superclass : Option Class}
    {methods : List FunDecl} (hsuper : ∀ d ∈ superclass, chart.HasClass d)
    (hdeclared : ∀ c : Class, c.name = name →
      c.methods = .ofList (methods.map fun m ↦ (m.name.lexeme, m)) →
      c.environment = M.frames.next :: M.current → c.superclass = superclass → c.Declared H) :
    Charts H chart (defineClass name superclass methods) M fun _ _ ↦ True := by
  obtain ⟨id, outer, origin, hcurrent, horigin, hadmits⟩ := hdeclares
  rw [Charts, Ends, defineClass_run hcurrent]
  generalize hc : (⟨M.nextId, name, superclass, .ofList (methods.map fun m ↦ (m.name.lexeme, m)),
    M.frames.next :: M.current⟩ : Class) = c
  have hfields : c.id = M.nextId ∧ c.superclass = superclass ∧
      c.environment = M.frames.next :: M.current ∧ c.Declared H := by
    subst hc
    exact ⟨rfl, rfl, rfl, hdeclared _ rfl rfl rfl rfl⟩
  obtain ⟨hid, hparent, henv, hc⟩ := hfields
  have hchart : chart <+: chart ++ [⟨M.current, .methods c⟩] := List.prefix_append _ _
  have hpushed := hM.push ⟨M.current, .methods c⟩
    (.ofList (superclass.elim [] fun d ↦ [("super", .class d)])) (M.nextId + 1) hM.current
    (.methods hc henv fun d hd ↦ ?_) (by rw [← hparent]; rfl) (fun x v hv ↦ ?_) (Nat.le_succ _)
    fun d hd ↦ ?_
  · refine ⟨rfl, _, hchart, hpushed.bind hname ?_ fun o ho ↦ .inr ?_, trivial⟩
    · exact ⟨_, _, henv, by rw [← hM.size, List.getElem?_concat_length]⟩
    · rwa [Option.some.inj (ho.symm.trans (Chart.getElem?_mono horigin hchart))]
  · have hd := hsuper d (hparent ▸ hd)
    exact ⟨hd, hid ▸ hM.ids d hd⟩
  · cases superclass with
    | none => cases hv
    | some d =>
      cases List.mem_singleton.mp (Bindings.mem_of_get?_ofList hv)
      exact hsuper d rfl
  · cases Purpose.methods.inj hd
    exact ⟨Nat.le_of_eq hid.symm, hid ▸ Nat.lt_succ_self _⟩

theorem superclass (hM : M.Charted H chart) (r : Reference) :
    Charts H chart (superclass r) M fun chart c ↦ chart.HasClass c := by
  refine bind (lookup hM r) fun _ v _ _ _ hM hv ↦ ?_
  cases v with
  | «class» c => exact pure hM hv
  | _ => exact fail hM

/-! ## Instances -/

theorem newInstance (hM : M.Charted H chart) {c : Class} (hc : chart.HasClass c) :
    Charts H chart (newInstance c) M fun chart i ↦ chart.HasClass i.class := by
  have hempty : ∀ x v, (Bindings.empty : Bindings Value).get? x = some v → v.Charted chart :=
    fun x v hv ↦ by cases hv
  exact (hM.withObjects (hM.objects.push hempty)).extended rfl hc

theorem property (hM : M.Charted H chart) {object : Value} (name : Token)
    (hobject : object.Charted chart) :
    Charts H chart (property object name) M fun chart v ↦ v.Charted chart := by
  rw [Eval.property.eq_def]
  cases object with
  | «instance» i =>
    refine get_bind ?_
    cases hfield : (M.objects.record i.fields).get? name.lexeme with
    | some v => exact pure hM (hM.objects _ _ v hfield)
    | none =>
      cases hmethod : i.class.findMethod? name.lexeme with
      | some method => exact map (bindMethod hM hobject hobject hmethod) fun h ↦ h
      | none => exact fail hM
  | _ => exact fail hM

theorem setProperty (hM : M.Charted H chart) {object v : Value} (name : Token)
    (hv : v.Charted chart) :
    Charts H chart (setProperty object name v) M fun _ _ ↦ True := by
  cases object with
  | «instance» i =>
    exact (hM.withObjects (hM.objects.bind i.fields name.lexeme hv)).extended rfl trivial
  | _ => exact fail hM

/-- Whatever is found as `this` is an instance. -/
theorem inherited (hM : M.Charted H chart) (keyword : Reference) (method : Token) :
    Charts H chart (inherited keyword method) M fun chart v ↦ v.Charted chart := by
  rw [Eval.inherited.eq_def]
  cases keyword.distance with
  | none => exact fail hM
  | some d =>
    refine bind (getAt hM _ _) fun _ parent M₁ _ _ hM hparent ↦
      bind (getAt hM _ _) fun _ self _ hchart _ hM' hself ↦ ?_
    obtain ⟨hself, id, hbound⟩ := hself
    obtain ⟨i, rfl⟩ := hM.exists_of_this hbound
    cases parent with
    | «class» c =>
      dsimp only
      cases hmethod : c.findMethod? method.lexeme with
      | some m => exact map (bindMethod hM' (hparent.1.mono hchart) hself hmethod) fun h ↦ h
      | none => exact fail hM'
    | _ => exact throw hM' trivial

/-! ## Other actions -/

theorem printLine (hM : M.Charted H chart) (line : String) :
    Charts H chart (printLine line) M fun _ _ ↦ True :=
  ⟨rfl, chart, List.prefix_rfl, hM.of_eq rfl rfl rfl (Nat.le_refl _), trivial⟩

/-- A statement is counted, and the frames are as they were. -/
theorem step (hM : M.Charted H chart) (host : Host) : Charts H chart (step host) M fun _ _ ↦ True :=
  ends_step ⟨rfl, chart, List.prefix_rfl, hM.of_eq rfl rfl rfl (Nat.le_refl _), trivial⟩
    fun _ ↦ ⟨rfl, chart, List.prefix_rfl, hM.of_eq rfl rfl rfl (Nat.le_refl _), trivial⟩

theorem checkCall (hM : M.Charted H chart) (callee : Value) (paren : Token) (given : Nat) :
    Charts H chart (checkCall callee paren given) M fun _ _ ↦ True := by
  rw [Eval.checkCall.eq_def]
  cases callee.signature? with
  | none => exact fail hM
  | some signature =>
    dsimp only
    split
    · exact pure hM trivial
    · exact fail hM

theorem callNative (hM : M.Charted H chart) (host : Host) (n : Native) (arguments : List Value) :
    Charts H chart (callNative host n arguments) M fun chart v ↦ v.Charted chart := by
  cases n with
  | clock => exact ⟨rfl, chart, List.prefix_rfl, hM.of_eq rfl rfl rfl (Nat.le_refl _), trivial⟩
  | toString => exact pure hM trivial

/-- The value of an operator holds no functions and no classes. -/
theorem operator {result : Except Issue Value} (hM : M.Charted H chart)
    (h : ∀ v, result = .ok v → v.environments = []) :
    Charts H chart (ofExcept .issue result) M fun chart v ↦ v.Charted chart := by
  cases result with
  | ok v => exact pure hM (Value.charted_of_environments (h v rfl))
  | error i => exact throw hM trivial

end Charts

end Eval

end Lox
