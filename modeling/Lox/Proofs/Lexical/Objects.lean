import Lox.Proofs.Lexical.Actions

/-!
# Classes and instances that correspond

The frames of `this` and `super` are made by the language itself, each for one name. On the other
side that name is put in scope, or taken out of scope.
-/

namespace Lox.Lexical

variable {excused : String → Prop} {inside : Bool} {β β' : Placement} {M : Lox.Machine}
  {μ : Machine} {ctx : Context}
  {scope : Scope} {V : Lox.Value} {v : Value}

/-! ## Frames with a single name -/

theorem Matches.fresh (h : Matches excused β M μ) (x : String) : β M.frames.next x = none := by
  by_contra hne
  obtain ⟨l, hl⟩ := Option.ne_none_iff_exists'.mp hne
  exact absurd (h.lt_next hl) (Nat.lt_irrefl _)

/-- A new frame that binds one name. -/
theorem Matches.pushBinding (h : Matches excused β M μ) {x : String}
    (hV : ValueMatches excused β V v) (hsuits : Suits x V) :
    Matches excused (β.place M.frames.next x μ.cells.size)
      { M with frames := M.frames.push (.ofList [(x, V)]) } { μ with cells := μ.cells.push v } := by
  have hpush : M.frames.push (.ofList [(x, V)]) = (M.frames.push .empty).bind M.frames.next x V :=
    (Store.bind_push ..).symm
  rw [hpush]
  refine h.push.define h.frames ?_ (h.fresh x) (hV.mono (Placement.within_place (h.fresh x))) hsuits
  rw [Store.next_push]
  exact Nat.lt_succ_self _

/-- Such a frame is nobody's current frame yet. -/
theorem Meets.pushBinding (h : Meets excused β ctx scope M μ) {x : String}
    (hV : ValueMatches excused β V v) (hsuits : Suits x V) :
    Meets excused (β.place M.frames.next x μ.cells.size) ctx scope
      { M with frames := M.frames.push (.ofList [(x, V)]) } { μ with cells := μ.cells.push v } := by
  refine h.of_same (h.agree.pushBinding hV hsuits) (fun id hid ↦ funext fun y ↦ ?_) ?_ rfl
  · exact Placement.place_of_ne fun h ↦ absurd h.1 (Nat.ne_of_lt hid)
  · rw [Store.next_push]
    exact Nat.le_succ _

theorem Later.pushBinding (h : Matches excused β M μ) (x : String) (l : Location)
    (b : Bindings Lox.Value) : Later β M (β.place M.frames.next x l)
      { M with frames := M.frames.push b } := by
  refine ⟨Placement.within_place (h.fresh x), fun id hid _ ↦ funext fun y ↦ ?_, ?_, rfl⟩
  · exact Placement.place_of_ne fun h ↦ absurd h.1 (Nat.ne_of_lt hid)
  · rw [Store.next_push]
    exact Nat.le_succ _

/-! ## Methods -/

/-- A method that is bound to an instance finds it as `this`. -/
theorem names_self {inherits : Bool} {env : Environment} {id : RecordId} {l : Location}
    (hplaced : Placed β (.parent inherits :: ctx) env) (hid : β id "this" = none) :
    (β.place id "this" l).names (.self :: .parent inherits :: ctx) (id :: env)
      = Names.extend (β.names (.parent inherits :: ctx) env) "this" l := by
  funext y
  rw [Names.extend, Placement.names, hplaced.names_eq (Placement.within_place hid)]
  by_cases hy : y = "this"
  · rw [if_pos hy, hy, Placement.place_self]
    rfl
  · rw [if_neg hy]
    simp [Layer.settles, hy]

namespace Lockstep

theorem bindMethod (h : Meets excused β ctx scope M μ) {F : FunDecl × Environment}
    {f : FunDecl × Names} (hF : MethodMatches excused β F f) (hV : ValueMatches excused β V v)
    (hself : ∃ i, V = .instance i) :
    Lockstep excused inside β (Lox.Eval.bindMethod F V) M (Eval.bindMethod f v) μ
      (Yields excused ctx scope fun β G g ↦ ClosureMatches excused β G g ∧
        G.declaration = F.1) := by
  obtain ⟨hdeclaration, inherits, ctx', hproper, hplaced, hscoped, hnames⟩ := hF
  have hsuits : Suits "this" V := ⟨fun _ ↦ hself, fun hx ↦ absurd hx (by decide)⟩
  have hmeets := h.pushBinding hV hsuits
  have hwithin := Placement.within_place (l := μ.cells.size) (h.agree.fresh "this")
  have hrun : Lox.Eval.bindMethod F V M = .ok ⟨M.nextId, F.1, M.frames.next :: F.2⟩
      { M with frames := M.frames.push (.ofList [("this", V)]), nextId := M.nextId + 1 } := rfl
  have hrun' : Eval.bindMethod f v μ = .ok ⟨μ.nextId, f.1, f.2.extend "this" μ.cells.size⟩
      { μ with cells := μ.cells.push v, nextId := μ.nextId + 1 } := rfl
  have hagree := hmeets.agree
  refine of_ok hrun hrun' ⟨hwithin, ?_, ?_, rfl⟩ ⟨hmeets.of_eq ?_ (Nat.le_refl _) rfl, ?_⟩
  · exact (Later.pushBinding h.agree "this" _ .empty).same
  · exact (Later.pushBinding h.agree "this" μ.cells.size (.ofList [("this", V)])).next
  · exact { hagree with nextId := congrArg (· + 1) h.agree.nextId }
  · refine ⟨⟨h.agree.nextId, hdeclaration, .self :: .parent inherits :: ctx', .method hproper, ?_,
      hscoped, ?_⟩, rfl⟩
    · refine .layer (fun x hx ↦ ?_) (hplaced.mono hwithin)
      rw [of_decide_eq_true hx, Placement.place_self]
      rfl
    · rw [names_self hplaced (h.agree.fresh "this"), ← hnames]

/-! ## Instances -/

theorem newInstance (h : Meets excused β ctx scope M μ) {C : Lox.Class} {c : Class}
    (hC : ClassMatches excused β C c) :
    Lockstep excused inside β (Lox.Eval.newInstance C) M (Eval.newInstance c) μ
      (Yields excused ctx scope fun β i i' ↦
        ValueMatches excused β (.instance i) (.instance i')) := by
  refine of_eq h rfl rfl h.agree.pushObject (Nat.le_refl _) rfl ?_
  rw [h.agree.objectsNext]
  exact .instance hC

theorem property (h : Meets excused β ctx scope M μ) (hV : ValueMatches excused β V v)
    (name : Token) :
    Lockstep excused inside β (Lox.Eval.property V name) M (Eval.property v name) μ
      (Yields excused ctx scope (ValueMatches excused)) := by
  cases hV with
  | @«instance» fields C c hC =>
    have hfield := (h.agree.objects fields).get? name.lexeme
    have hmethod := hC.findMethod? name.lexeme
    refine get ?_
    generalize (M.objects.record fields).get? name.lexeme = V at hfield
    generalize (μ.objects.record fields).get? name.lexeme = v at hfield
    generalize C.findMethod? name.lexeme = F at hmethod
    generalize c.findMethod? name.lexeme = f at hmethod
    cases hfield with
    | some hV => exact pure ⟨h, hV⟩
    | none =>
      cases hmethod with
      | some hF =>
        refine (bindMethod h hF (.instance hC) ⟨_, rfl⟩).map fun _ _ _ _ _ ⟨hmeets, hG, _⟩ ↦ ?_
        exact ⟨hmeets, .function hG⟩
      | none => exact fail h.agree ..
  | _ => exact fail h.agree ..

theorem setProperty {W : Lox.Value} {w : Value} (h : Meets excused β ctx scope M μ)
    (hV : ValueMatches excused β V v) (name : Token) (hW : ValueMatches excused β W w) :
    Lockstep excused inside β (Lox.Eval.setProperty V name W) M (Eval.setProperty v name w) μ
      (Yields excused ctx scope fun _ _ _ ↦ True) := by
  cases hV with
  | «instance» hC =>
    exact of_eq h rfl rfl (h.agree.bindField _ name.lexeme hW) (Nat.le_refl _) rfl trivial
  | _ => exact fail h.agree ..

/-! ## Classes -/

theorem superclass (h : Meets excused β ctx scope M μ) {r : Reference}
    (hr : r.name.lexeme ≠ "super") (hdistance : r.distance = ctx.distance? r.name.lexeme) :
    Lockstep excused inside β (Lox.Eval.superclass r) M (Eval.superclass scope.names r.name) μ
      (Yields excused ctx scope (ClassMatches excused)) := by
  refine (lookup h hr hdistance).bind fun β₁ M₁ μ₁ V v _ ⟨hmeets, hV⟩ ↦ ?_
  cases hV with
  | «class» hC => exact pure ⟨hmeets, hC⟩
  | _ => exact fail hmeets.agree ..

/-- Reading a method of the superclass. What is found as `super` is a class and what is found as
`this` is an instance, so nothing can go wrong here. -/
theorem inherited (h : Meets excused β ctx scope M μ) {r : Reference} {method : Token}
    (hdistance : r.distance = if ctx.inherits then ctx.distance? "super" else none) :
    Lockstep excused inside β (Lox.Eval.inherited r method) M
      (Eval.inherited scope.names r.name method) μ
      (Yields excused ctx scope (ValueMatches excused)) := by
  rw [Lox.Eval.inherited, Eval.inherited, hdistance, names_eq h]
  cases hinherits : ctx.inherits with
  | false =>
    rw [h.placed.names_super_eq_none h.proper hinherits]
    exact fail h.agree ..
  | true =>
    obtain ⟨d, self, parent, rest, l, l', hd, hdrop, hl, hsuper, hl', hthis⟩ :=
      h.placed.exists_parent h.proper hinherits
    have hdrop' : M.current.drop (d + 1) = parent :: rest := by
      rw [← List.drop_drop, hdrop, List.drop_one, List.tail_cons]
    rw [if_pos rfl, hd, hsuper, hthis]
    refine (getAt h hdrop' hl).bind ?_
    rintro _ _ _ V v - ⟨⟨rfl, rfl, rfl⟩, hV, hsuits⟩
    obtain ⟨C, rfl⟩ := hsuits.parent rfl
    simp only [show ((d + 1 : Nat) : Int) - 1 = d by omega]
    refine (getAt h hdrop hl').bind ?_
    rintro _ _ _ W w - ⟨⟨rfl, rfl, rfl⟩, hW, hsuits'⟩
    cases hV with
    | @«class» _ c hC =>
      have hmethod := hC.findMethod? method.lexeme
      simp only []
      generalize C.findMethod? method.lexeme = F at hmethod
      generalize c.findMethod? method.lexeme = f at hmethod
      cases hmethod with
      | some hF =>
        refine (bindMethod h hF hW (hsuits'.self rfl)).map fun _ _ _ _ _ ⟨hmeets, hG, _⟩ ↦ ?_
        exact ⟨hmeets, .function hG⟩
      | none => exact fail h.agree ..

/-- The frame of `super` that surrounds the methods of a class, and what it does to the names in
scope. -/
structure Surrounds (β : Placement) (inherits : Bool) (id : RecordId) (inside : Names → Names) :
    Prop where
  bound : inherits = true → (β id "super").isSome
  names : ∀ names x,
    inside names x = if x = "super" then (if inherits then β id "super" else none) else names x

theorem surround (h : Meets excused β ctx scope M μ) {C : Option Lox.Class} {c : Option Class}
    (hC : Option.Rel (ClassMatches excused β) C c) :
    Lockstep excused inside β (MonadState.get >>= fun M ↦ Lox.Eval.newFrame M.current
        (.ofList (C.elim [] fun c ↦ [("super", .class c)]))) M (Eval.methodNames c) μ
      (Yields excused ctx scope fun β env inside ↦
        ∃ id, env = id :: M.current ∧ Surrounds β C.isSome id inside) := by
  cases hC with
  | none =>
    refine of_eq h rfl rfl h.agree.push ?_ rfl ⟨M.frames.next, rfl, ?_, fun names x ↦ rfl⟩
    · rw [Store.next_push]
      exact Nat.le_succ _
    · rintro ⟨⟩
  | @some C c hC =>
    have hsuits : Suits "super" (.class C) := ⟨fun hx ↦ absurd hx (by decide), fun _ ↦ ⟨C, rfl⟩⟩
    refine of_ok rfl rfl (Later.pushBinding h.agree "super" μ.cells.size _)
      ⟨h.pushBinding (.class hC) hsuits, M.frames.next, rfl, fun _ ↦ ?_, fun names x ↦ ?_⟩
    · rw [Placement.place_self]
      rfl
    · rw [Placement.place_self]
      rfl

/-- The names in scope around the methods of a class. -/
theorem Surrounds.names_eq {inherits : Bool} {id : RecordId} {inside : Names → Names}
    (h : Surrounds β inherits id inside) (ctx : Context) (env : Environment) :
    β.names (.parent inherits :: ctx) (id :: env) = inside (β.names ctx env) := by
  funext x
  rw [h.names, Placement.names]
  by_cases hx : x = "super"
  · rw [if_pos hx, hx]
    cases inherits <;> rfl
  · rw [if_neg hx]
    simp [Layer.settles, hx]

theorem Surrounds.mono {inherits : Bool} {id : RecordId} {inside : Names → Names}
    (h : Surrounds β inherits id inside) (hβ : β.Within β') : Surrounds β' inherits id inside := by
  cases inherits with
  | false => exact ⟨fun h ↦ (by cases h), h.names⟩
  | true =>
    obtain ⟨l, hl⟩ := Option.isSome_iff_exists.mp (h.bound rfl)
    have hl' : β' id "super" = β id "super" := (hβ hl).trans hl.symm
    refine ⟨fun _ ↦ hl' ▸ h.bound rfl, fun names x ↦ ?_⟩
    rw [hl']
    exact h.names names x

theorem defineClass (h : Meets excused β ctx scope M μ) {name : Token} {C : Option Lox.Class}
    {c : Option Class} {methods : List FunDecl} (hC : Option.Rel (ClassMatches excused β) C c)
    (hname : Ordinary name.lexeme) (hadmits : ctx.Admits name.lexeme)
    (hmethods : ∀ f ∈ methods, f.Scoped excused
      (.self :: .parent C.isSome :: ctx.declare name.lexeme)) :
    Lockstep excused inside β (Lox.Eval.defineClass name.lexeme C methods) M (do
        let inside ← Eval.methodNames c
        let id ← Eval.newId
        let methods := Bindings.ofList (methods.map fun m ↦ (m.name.lexeme, m))
        Eval.declare scope name.lexeme fun names ↦
          .class ⟨id, name.lexeme, c, methods, inside names⟩) μ
      fun β' M' μ' _ scope' ↦ Meets excused β' (ctx.declare name.lexeme) scope' M' μ' := by
  rw [Lox.Eval.defineClass_eq]
  refine (surround h hC).bind ?_
  rintro β₁ M₁ μ₁ _ inside hlater₁ ⟨hmeets₁, id, rfl, hsurrounds⟩
  refine (newId hmeets₁).bind ?_
  rintro β₂ M₂ μ₂ n _ hlater₂ ⟨hmeets₂, rfl⟩
  refine declare hmeets₂ hname hadmits fun β' hβ' hplaced ↦ .class ?_
  have hcurrent : M₂.current = M.current := hlater₂.current.trans hlater₁.current
  have hsurrounds' := (hsurrounds.mono hlater₂.within).mono hβ'
  have hmethods' : MethodsMatch excused β' C.isSome
      (Bindings.ofList (methods.map fun m ↦ (m.name.lexeme, m))) (id :: M.current)
      (inside (β'.names (ctx.declare name.lexeme) M₂.current)) := by
    refine ⟨ctx.declare name.lexeme, hmeets₂.proper.declare hname, ?_, ?_, ?_⟩
    · rw [hcurrent] at hplaced
      refine .layer (fun x hx ↦ ?_) hplaced
      obtain ⟨hinherits, hx⟩ := Bool.and_eq_true_iff.mp hx
      rw [of_decide_eq_true hx]
      exact hsurrounds'.bound hinherits
    · intro x f hf
      obtain ⟨f, hmem, heq⟩ := List.mem_map.mp (Bindings.mem_of_get?_ofList hf)
      cases heq
      exact hmethods f hmem
    · rw [hcurrent]
      exact (hsurrounds'.names_eq _ _).symm
  cases hC with
  | none => exact .plain hmethods'
  | some hC =>
    exact .derived (hC.mono ((hlater₁.within.trans hlater₂.within).trans hβ')) hmethods'

end Lockstep

end Lox.Lexical
