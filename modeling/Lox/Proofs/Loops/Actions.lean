import Lox.Proofs.Loops.Agreement

/-!
# Actions with additional frames

Every action of the machine does the same in two machines that are at the same place. A distance
leads to frames that belong together, and so does a search from the globals.
-/

namespace Lox

/-- The distances lead to the same place. -/
def Padding.Leads (Γ : Padding) (d d' : Int) : Prop := d'.toNat = Γ.lift d.toNat

/-- Two outcomes of looking for a name at a distance. -/
inductive FindsAligned (τ : Pairing) :
    Except Desync (RecordId × Value) → Except Desync (RecordId × Value) → Prop
  | ok {id id' : RecordId} {V W : Value} :
      τ id id' → V.Aligned τ W → FindsAligned τ (.ok (id, V)) (.ok (id', W))
  | error {e e' : Desync} : e.Similar e' → FindsAligned τ (.error e) (.error e')

variable {side : Side} {τ : Pairing} {Γ : Padding} {M N : Machine} {V V' W W' : Value}
  {C D : Class} {x : String} {d d' : Int} {host : Host}

theorem Padding.leads_lift (Γ : Padding) (d : Nat) : Γ.Leads d (Γ.lift d : Nat) := rfl

/-- What is found at distances that lead to the same place. -/
theorem Machine.Aligned.findAt (h : M.Aligned τ N) {env env' : Environment}
    (hchains : Chains τ Γ env env') (hd : Γ.Leads d d') (x : String) :
    FindsAligned τ (M.frames.findAt env d x) (N.frames.findAt env' d' x) := by
  have hdrop := hchains.drop d.toNat
  rw [← hd] at hdrop
  rcases hdrop with ⟨hnil, hnil'⟩ | ⟨id, rest, id', rest', hcons, hcons', hid⟩
  · rw [Store.findAt_of_nil hnil, Store.findAt_of_nil hnil']
    exact .error .noFrame
  · rw [Store.findAt_of_cons hcons, Store.findAt_of_cons hcons']
    have hx := (h.frames hid).2.2.bound x
    generalize (M.frames.record id).get? x = o at hx
    generalize (N.frames.record id').get? x = o' at hx
    cases hx with
    | none => exact .error .unbound
    | some hV => exact .ok hid hV

namespace Agrees

/-! ### Variables -/

theorem getAt (h : Meets τ Γ M N) (hd : Γ.Leads d d') (x : String) :
    Agrees side τ (Eval.getAt d x) M (Eval.getAt d' x) N Value.Aligned := by
  have hfind := h.aligned.findAt h.chains hd x
  have hgetAt : ∀ (M : Machine) (d : Int), Eval.getAt d x M
      = match M.frames.findAt M.current d x with
        | .ok found => .ok found.2 M
        | .error e => .error (.desync e) M := by
    intro M d
    rw [Eval.getAt_run, Store.getAt]
    cases M.frames.findAt M.current d x <;> rfl
  have hM := hgetAt M d
  have hN := hgetAt N d'
  generalize M.frames.findAt M.current d x = found at hfind hM
  generalize N.frames.findAt N.current d' x = found' at hfind hN
  cases hfind with
  | ok _ hV => exact .ok hM hN (.refl τ M N) h.aligned hV
  | error he => exact .error hM hN (.refl τ M N) h.aligned (.desync he)

theorem lookup (h : Meets τ Γ M N) (r : Reference) :
    Agrees side τ (Eval.lookup r) M (Eval.lookup (r.lifted Γ)) N Value.Aligned := by
  cases hdistance : r.distance with
  | some d =>
    have hlifted : (r.lifted Γ).distance = some (Γ.lift d) := by
      rw [Reference.distance_lifted, hdistance, Option.map_some]
    rw [Eval.lookup_of_distance hdistance, Eval.lookup_of_distance hlifted]
    exact getAt h (Γ.leads_lift d) _
  | none =>
    have hlifted : (r.lifted Γ).distance = none := by
      rw [Reference.distance_lifted, hdistance, Option.map_none]
    have hM := Eval.lookup_of_global (M := M) hdistance
    have hN := Eval.lookup_of_global (M := N) hlifted
    have hfound := h.aligned.get?_globals r.name.lexeme
    rw [Reference.name_lifted] at hN
    generalize M.frames.get? Machine.globals r.name.lexeme = o at hfound hM
    generalize N.frames.get? Machine.globals r.name.lexeme = o' at hfound hN
    cases hfound with
    | none => exact .error hM hN (.refl τ M N) h.aligned .issue
    | some hV => exact .ok hM hN (.refl τ M N) h.aligned hV

theorem assign (h : Meets τ Γ M N) (r : Reference) (hV : V.Aligned τ V') :
    Agrees side τ (Eval.assign r V) M (Eval.assign (r.lifted Γ) V') N fun _ _ _ ↦ True := by
  cases hdistance : r.distance with
  | some d =>
    have hlifted : (r.lifted Γ).distance = some (Γ.lift d) := by
      rw [Reference.distance_lifted, hdistance, Option.map_some]
    have hM := Eval.assign_of_distance (M := M) hdistance V
    have hN := Eval.assign_of_distance (M := N) hlifted V'
    rw [Reference.name_lifted] at hN
    have hfind := h.aligned.findAt h.chains (Γ.leads_lift d) r.name.lexeme
    generalize M.frames.findAt M.current d r.name.lexeme = found at hfind hM
    generalize N.frames.findAt N.current (Γ.lift d : Nat) r.name.lexeme = found' at hfind hN
    cases hfind with
    | ok hid _ => exact step hM hN (h.aligned.bind hid _ hV) rfl rfl trivial
    | error he => exact .error hM hN (.refl τ M N) h.aligned (.desync he)
  | none =>
    have hlifted : (r.lifted Γ).distance = none := by
      rw [Reference.distance_lifted, hdistance, Option.map_none]
    have hM := Eval.assign_of_global (M := M) hdistance V
    have hN := Eval.assign_of_global (M := N) hlifted V'
    rw [Reference.name_lifted] at hN
    have hframe := h.aligned.frameOf?_globals r.name.lexeme
    generalize M.frames.frameOf? Machine.globals r.name.lexeme = o at hframe hM
    generalize N.frames.frameOf? Machine.globals r.name.lexeme = o' at hframe hN
    cases hframe with
    | none => exact .error hM hN (.refl τ M N) h.aligned .issue
    | some hid => exact step hM hN (h.aligned.bind hid _ hV) rfl rfl trivial

theorem define (h : Meets τ Γ M N) (hopen : Γ.IsOpen) (x : String) (hV : V.Aligned τ V') :
    Agrees side τ (Eval.define x V) M (Eval.define x V') N fun _ _ _ ↦ True := by
  rcases h.chains.head hopen with ⟨hnil, hnil'⟩ | ⟨id, rest, id', rest', hcons, hcons', hid⟩
  · have hdefine : ∀ (M : Machine) (V : Value), M.current = [] → Eval.define x V M = .ok () M := by
      rintro ⟨frames, objects, current, nextId, steps, readings, printed⟩ V ⟨⟩
      rfl
    exact step (hdefine M V hnil) (hdefine N V' hnil') h.aligned rfl rfl trivial
  · exact step (Eval.define_of_current hcons x V) (Eval.define_of_current hcons' x V')
      (h.aligned.bind hid x hV) rfl rfl trivial

/-! ### Counting and printing -/

/-- Without a limit a statement is only counted. -/
theorem stepBoth (h : M.Aligned τ N) (hlimit : host.maxSteps = none) :
    Agrees side τ (Eval.step host) M (Eval.step host) N fun _ _ _ ↦ True := by
  have hstep : ∀ M : Machine, Eval.step host M = .ok () { M with steps := M.steps + 1 } := by
    intro M
    rw [Eval.step_run, hlimit]
  exact step (hstep M) (hstep N) { h with } rfl rfl trivial

/-- A statement that only the second machine begins. -/
theorem stepSecond {α β : Type} {p : Eval α} {q : Eval β} {S : Pairing → α → β → Prop}
    (h : Meets τ Γ M N) (hlimit : host.maxSteps = none)
    (hq : ∀ {N₁ : Machine}, Meets τ Γ M N₁ → Agrees side τ p M q N₁ S) :
    Agrees side τ p M (Eval.step host >>= fun _ ↦ q) N S := by
  have hstep : Eval.step host N = .ok () { N with steps := N.steps + 1 } := by
    rw [Eval.step_run, hlimit]
  exact second hstep rfl (@hq { N with steps := N.steps + 1 } ⟨{ h.aligned with }, h.chains⟩)

theorem printLine (h : M.Aligned τ N) (line : String) :
    Agrees side τ (Eval.printLine line) M (Eval.printLine line) N fun _ _ _ ↦ True :=
  step rfl rfl { h with printed := congrArg (line :: ·) h.printed } rfl rfl trivial

/-! ### Functions and classes -/

theorem newId (h : M.Aligned τ N) :
    Agrees side τ Eval.newId M Eval.newId N fun _ n n' ↦ n = n' :=
  step rfl rfl { h with nextId := congrArg (· + 1) h.nextId } rfl rfl h.nextId

theorem newFrame {env env' : Environment} {b b' : Bindings Value} (h : M.Aligned τ N)
    (hchains : Chains τ Γ env env') (hb : b.Related (Value.Aligned τ) b') :
    Agrees side τ (Eval.newFrame env b) M (Eval.newFrame env' b') N
      fun τ' env env' ↦ Chains τ' (false :: Γ) env env' := by
  have hwithin := Pairing.within_add τ M.frames.next N.frames.next
  exact .ok rfl rfl ⟨hwithin, rfl, rfl⟩ (h.push hb)
    (.common (Pairing.add_self ..) (hchains.mono hwithin))

theorem newFunction {Γ' : Padding} {f f' : FunDecl} {env env' : Environment} (h : Meets τ Γ M N)
    (hchains : Chains τ Γ' env env') (hf : f.Pads Γ' f') :
    Agrees side τ (Eval.newFunction f env) M (Eval.newFunction f' env') N
      fun τ' F G ↦ F.Aligned τ' G := by
  rw [Eval.newFunction, Eval.newFunction]
  refine (newId h.aligned).bind h fun h₁ hwithin hid ↦ pure h₁.aligned ⟨hid, ?_⟩
  exact ⟨Γ', hchains.mono hwithin, hf⟩

theorem related_singleton {x : String} (hV : V.Aligned τ V') :
    (Bindings.ofList [(x, V)]).Related (Value.Aligned τ) (.ofList [(x, V')]) :=
  Bindings.related_ofList (.cons ⟨rfl, hV⟩ .nil)

theorem bindMethod {F G : FunDecl × Environment} (h : Meets τ Γ M N) (hF : Methods.Aligned τ F G)
    (hV : V.Aligned τ V') :
    Agrees side τ (Eval.bindMethod F V) M (Eval.bindMethod G V') N fun τ' f g ↦ f.Aligned τ' g := by
  obtain ⟨Γ', hchains, hcode⟩ := hF
  rw [Eval.bindMethod, Eval.bindMethod]
  exact (newFrame h.aligned hchains (related_singleton hV)).bind h
    fun h₁ _ hchains₁ ↦ newFunction h₁ hchains₁ hcode

theorem defineClass {methods methods' : List FunDecl} (h : Meets τ Γ M N) (hopen : Γ.IsOpen)
    (name : String) {C D : Option Class} (hC : Option.Rel (Class.Aligned τ) C D)
    (hmethods : FunDecl.RowPads (false :: false :: Γ) methods methods') :
    Agrees side τ (Eval.defineClass name C methods) M (Eval.defineClass name D methods') N
      fun _ _ _ ↦ True := by
  have hsuper : (Bindings.ofList (C.elim [] fun c ↦ [("super", Value.class c)])).Related
      (Value.Aligned τ) (.ofList (D.elim [] fun c ↦ [("super", .class c)])) := by
    cases hC with
    | none => exact Bindings.related_empty
    | some hC => exact related_singleton (.class hC)
  have hbindings : (Bindings.ofList (methods.map fun m ↦ (m.name.lexeme, m))).Related
      (FunDecl.Pads (false :: false :: Γ))
      (Bindings.ofList (methods'.map fun m ↦ (m.name.lexeme, m))) := by
    refine Bindings.related_ofList
      (List.forall₂_map_left_iff.mpr (List.forall₂_map_right_iff.mpr ?_))
    exact hmethods.forall₂.imp fun _ _ hf ↦ ⟨congrArg Token.lexeme hf.name_eq, hf⟩
  rw [Eval.defineClass_eq, Eval.defineClass_eq]
  refine (get (newFrame h.aligned h.chains hsuper)).bind h fun h₁ hwithin₁ hchains ↦ ?_
  refine (newId h₁.aligned).bind h₁ fun {_ _ _ id id'} h₂ hwithin₂ hid ↦ ?_
  subst hid
  refine define h₂ hopen name (.class ?_)
  have hchains₂ := hchains.mono hwithin₂
  cases hC with
  | none => exact .plain hchains₂ hbindings
  | some hC => exact .derived ((hC.mono hwithin₁).mono hwithin₂) hchains₂ hbindings

theorem superclass (h : Meets τ Γ M N) (r : Reference) :
    Agrees side τ (Eval.superclass r) M (Eval.superclass (r.lifted Γ)) N Class.Aligned := by
  rw [Eval.superclass, Eval.superclass]
  refine (lookup h r).bind h fun h₁ _ hV ↦ ?_
  cases hV with
  | «class» hC => exact pure h₁.aligned hC
  | _ => exact fail h₁.aligned ..

/-! ### Instances -/

theorem newInstance (h : M.Aligned τ N) (hC : C.Aligned τ D) :
    Agrees side τ (Eval.newInstance C) M (Eval.newInstance D) N
      fun τ' i i' ↦ Value.Aligned τ' (.instance i) (.instance i') := by
  refine step rfl rfl h.pushObject rfl rfl ?_
  rw [h.objectsNext]
  exact .instance hC

/-- A method that may have been found is bound to an instance. -/
theorem found {F G : Option (FunDecl × Environment)} (h : Meets τ Γ M N)
    (hF : Option.Rel (Methods.Aligned τ) F G) (hV : V.Aligned τ V') (name : Token) :
    Agrees side τ
      (match F with
        | some m => Value.function <$> Eval.bindMethod m V
        | none => Eval.fail name (.undefinedProperty name.lexeme)) M
      (match G with
        | some m => Value.function <$> Eval.bindMethod m V'
        | none => Eval.fail name (.undefinedProperty name.lexeme)) N Value.Aligned := by
  cases hF with
  | none => exact fail h.aligned ..
  | some hm => exact (bindMethod h hm hV).map h fun _ _ _ hf ↦ .function hf

theorem property (h : Meets τ Γ M N) (hV : V.Aligned τ V') (name : Token) :
    Agrees side τ (Eval.property V name) M (Eval.property V' name) N Value.Aligned := by
  cases hV with
  | @«instance» fields C D hC =>
    have hfield := (h.aligned.objects fields).bound name.lexeme
    refine get ?_
    generalize (M.objects.record fields).get? name.lexeme = o at hfield
    generalize (N.objects.record fields).get? name.lexeme = o' at hfield
    cases hfield with
    | some hV => exact pure h.aligned hV
    | none => exact found h (hC.findMethod? name.lexeme) (.instance hC) name
  | _ => exact fail h.aligned ..

theorem setProperty (h : Meets τ Γ M N) (hV : V.Aligned τ V') (name : Token)
    (hW : W.Aligned τ W') :
    Agrees side τ (Eval.setProperty V name W) M (Eval.setProperty V' name W') N
      fun _ _ _ ↦ True := by
  cases hV with
  | «instance» hC => exact step rfl rfl (h.aligned.bindField _ _ hW) rfl rfl trivial
  | _ => exact fail h.aligned ..

theorem inherited (h : Meets τ Γ M N) {r : Reference} (method : Token)
    (hr : ∀ d ∈ r.distance, Γ.lift d - 1 = Γ.lift (d - 1)) :
    Agrees side τ (Eval.inherited r method) M (Eval.inherited (r.lifted Γ) method) N
      Value.Aligned := by
  rw [Eval.inherited, Eval.inherited, Reference.lifted]
  cases hdistance : r.distance with
  | none => exact fail h.aligned ..
  | some d =>
    have hself : Γ.Leads ((d : Int) - 1) ((Γ.lift d : Int) - 1) := by
      have hlift := hr d hdistance
      have hd : ((d : Int) - 1).toNat = d - 1 := by omega
      have hd' : ((Γ.lift d : Int) - 1).toNat = Γ.lift d - 1 := by omega
      rw [Padding.Leads, hd, hd', hlift]
    refine (getAt h (Γ.leads_lift d) "super").bind h fun h₁ _ hV ↦ (getAt h₁ hself "this").bind h₁
      fun h₂ hwithin hW ↦ ?_
    cases hV with
    | «class» hC => exact found h₂ ((hC.mono hwithin).findMethod? method.lexeme) hW method
    | _ => exact throw h₂.aligned .stuck

/-! ### Calls and operators -/

theorem checkCall (h : M.Aligned τ N) (hV : V.Aligned τ V') (paren : Token) (given : Nat) :
    Agrees side τ (Eval.checkCall V paren given) M (Eval.checkCall V' paren given) N
      fun _ _ _ ↦ True := by
  rw [Eval.checkCall, Eval.checkCall, hV.signature?_eq]
  cases V'.signature? with
  | none => exact fail h ..
  | some signature =>
    dsimp only
    split
    · exact pure h trivial
    · exact fail h ..

theorem callNative (h : M.Aligned τ N) (host : Host) (n : Native) {Vs Ws : List Value}
    (hVs : List.Forall₂ (Value.Aligned τ) Vs Ws) :
    Agrees side τ (Eval.callNative host n Vs) M (Eval.callNative host n Ws) N Value.Aligned := by
  cases n with
  | clock =>
    have hclock : ∀ M : Machine, Eval.callNative host .clock Vs M
        = .ok (.number (host.clock M.readings)) { M with readings := M.readings + 1 } := fun _ ↦ rfl
    refine step (hclock M) (hclock N) ?_ rfl rfl (by rw [h.readings]; exact .number)
    exact { h with readings := congrArg (· + 1) h.readings }
  | toString =>
    have hhead : (Vs.headD .nil).text = (Ws.headD .nil).text := by
      cases hVs with
      | nil => rfl
      | cons hV _ => exact hV.text_eq
    rw [Eval.callNative, Eval.callNative, hhead]
    exact pure h .string

theorem ofExcept {result result' : Except Issue Value} (h : M.Aligned τ N)
    (hresult : ResultsAligned τ result result') :
    Agrees side τ (Eval.ofExcept .issue result) M (Eval.ofExcept .issue result') N
      Value.Aligned := by
  cases hresult with
  | ok hV => exact pure h hV
  | error => exact throw h .issue

end Agrees

end Lox
