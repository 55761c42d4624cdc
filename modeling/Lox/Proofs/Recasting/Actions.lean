import Lox.Proofs.Actions
import Lox.Proofs.Mirror
import Lox.Proofs.Recasting.Recast

/-!
# Actions on a machine that is recast

The actions of the evaluator do the same whatever the lines are, and whatever the slots of the
declarations hold that stand on the machine: they look at no declaration, and only make functions of
them. The one slot that an action reads is that of the reference it is given, so that one has to
hold the same on both sides, and its line alone is another.

Nor does it matter what has been printed before, and, if there is no limit on statements, how many
of them have been begun.
-/

namespace Lox

variable (ρ : Recasting) (before : List String) (begun : Nat)

/-- A machine that is recast, and which has printed something and begun some statements before. -/
def Machine.shifted (M : Machine) : Machine :=
  { M.recast ρ with printed := M.printed ++ before, steps := M.steps + begun }

/-- A computation of the evaluator that does the same on a machine that is recast. -/
abbrev Eval.Recasts {α α' : Type} (g : α → α') (p : Eval α) (q : Eval α') : Prop :=
  Mirrors (Machine.shifted ρ before begun) (Interrupt.recast ρ) g p q

variable {ρ before begun} {host : Host}

namespace Eval.Recasts

variable {α α' : Type} {g : α → α'}

/-! ## Leaving early -/

theorem fail (token : Token) (cause : Issue.Cause) :
    Recasts ρ before begun g (Eval.fail token cause) (Eval.fail (token.moved ρ.line) cause) :=
  .throw rfl

theorem overflow : Recasts ρ before begun g Eval.overflow Eval.overflow := .throw rfl

theorem stuck : Recasts ρ before begun g (throw .stuck) (throw .stuck) := .throw rfl

theorem ofExcept {ε : Type} {interrupt : ε → Interrupt} {h : ε → ε} {result : Except ε α}
    {result' : Except ε α'} (hresult : result' = (result.map g).mapError h)
    (hinterrupt : ∀ e, (interrupt e).recast ρ = interrupt (h e)) :
    Recasts ρ before begun g (Eval.ofExcept interrupt result)
      (Eval.ofExcept interrupt result') := by
  rw [hresult]
  cases result with
  | ok a => exact .pure rfl
  | error e => exact .throw (hinterrupt e)

theorem within {p : Eval α} {q : Eval α'} (env : Environment) (h : Recasts ρ before begun g p q) :
    Recasts ρ before begun g (Eval.within env p) (Eval.within env q) := by
  intro M
  rw [Eval.within, Eval.within]
  cases hp : p { M with current := env } with
  | ok a M' =>
    have hq : q { M.shifted ρ before begun with current := env }
        = .ok (g a) (M'.shifted ρ before begun) :=
      h.of_ok hp
    rw [hq]
    rfl
  | error i M' =>
    have hq : q { M.shifted ρ before begun with current := env }
        = .error (i.recast ρ) (M'.shifted ρ before begun) := h.of_error hp
    rw [hq]
    rfl

theorem catchReturn {p q : Eval Unit} (h : Recasts ρ before begun id p q) :
    Recasts ρ before begun (Value.recast ρ) (Eval.catchReturn p) (Eval.catchReturn q) := by
  intro M
  rw [Eval.catchReturn, Eval.catchReturn]
  cases hp : p M with
  | ok a M' =>
    rw [h.of_ok hp]
    rfl
  | error i M' =>
    rw [h.of_error hp]
    cases i <;> rfl

theorem repeatWhile {p q : Eval Bool} (h : Recasts ρ before begun id p q) :
    ∀ rounds, Recasts ρ before begun id (Eval.repeatWhile p rounds) (Eval.repeatWhile q rounds)
  | 0 => .throw rfl
  | rounds + 1 => by
    rw [Eval.repeatWhile, Eval.repeatWhile]
    refine h.bind fun b ↦ ?_
    cases b with
    | true => exact repeatWhile h rounds
    | false => exact .pure rfl

/-! ## Frames and fields -/

theorem newFrame (outer : Environment) (b : Bindings Value) :
    Recasts ρ before begun id (Eval.newFrame outer b)
      (Eval.newFrame outer (b.map (Value.recast ρ))) := by
  refine .modifyGet fun M ↦ ?_
  simp only [Machine.shifted, Machine.recast, Store.next_map, Store.push_map, id_eq]

theorem define (name : String) (v : Value) :
    Recasts ρ before begun id (Eval.define name v) (Eval.define name (v.recast ρ)) := by
  refine .modify fun M ↦ ?_
  simp only [Machine.shifted, Machine.recast, Store.define_map]

theorem getAt (distance : Int) (name : String) :
    Recasts ρ before begun (Value.recast ρ) (Eval.getAt distance name)
      (Eval.getAt distance name) := by
  refine Mirrors.get.bind fun M ↦ ofExcept (h := id) ?_ fun _ ↦ rfl
  rw [Machine.shifted, Machine.recast, Store.getAt_map]
  cases M.frames.getAt M.current distance name <;> rfl

theorem lookup (r : Reference) :
    Recasts ρ before begun (Value.recast ρ) (Eval.lookup r)
      (Eval.lookup (r.recast (.lines ρ.line))) := by
  rw [Eval.lookup.eq_def, Eval.lookup.eq_def, Reference.distance_recast]
  cases r.distance with
  | some d => exact getAt _ _
  | none =>
    refine Mirrors.get.bind fun M ↦ ?_
    have hname : (M.shifted ρ before begun).frames.get? Machine.globals
        (r.recast (.lines ρ.line)).name.lexeme
        = (M.frames.get? Machine.globals r.name.lexeme).map (Value.recast ρ) :=
      Store.get?_map _ _ _ _
    rw [hname]
    cases M.frames.get? Machine.globals r.name.lexeme with
    | some v => exact .pure rfl
    | none => exact fail _ _

theorem assign (r : Reference) (v : Value) :
    Recasts ρ before begun id (Eval.assign r v)
      (Eval.assign (r.recast (.lines ρ.line)) (v.recast ρ)) := by
  refine .bind (g := id) ?_ fun frame ↦ .modify fun M ↦ ?_
  · rw [Eval.frameOf.eq_def, Eval.frameOf.eq_def, Reference.distance_recast]
    refine Mirrors.get.bind fun M ↦ ?_
    cases r.distance with
    | some d =>
      refine .bind (g := fun found ↦ (found.1, found.2.recast ρ))
        (ofExcept (h := id) ?_ fun _ ↦ rfl) fun _ ↦ .pure rfl
      rw [Machine.shifted, Machine.recast, Reference.name_recast, Token.lexeme_moved,
        Store.findAt_map]
      cases M.frames.findAt M.current d r.name.lexeme <;> rfl
    | none =>
      have hframe : (M.shifted ρ before begun).frames.frameOf? Machine.globals
            (r.recast (.lines ρ.line)).name.lexeme
          = M.frames.frameOf? Machine.globals r.name.lexeme := Store.frameOf?_map _ _ _ _
      rw [hframe]
      cases M.frames.frameOf? Machine.globals r.name.lexeme with
      | some frame => exact .pure rfl
      | none => exact fail _ _
  · simp only [Machine.shifted, Machine.recast, id_eq, Reference.name_recast, Token.lexeme_moved,
      Store.bind_map]

theorem newId : Recasts ρ before begun id Eval.newId Eval.newId := .modifyGet fun _ ↦ rfl

theorem newInstance (c : Class) :
    Recasts ρ before begun (Instance.recast ρ) (Eval.newInstance c)
      (Eval.newInstance (c.recast ρ)) := by
  refine .modifyGet fun M ↦ ?_
  have hpush := Store.push_map (Value.recast ρ) M.objects .empty
  simp only [Machine.shifted, Machine.recast, Store.next_map, Instance.recast, ← hpush,
    Bindings.map_empty]

theorem setField (i : Instance) (name : String) (v : Value) :
    Recasts ρ before begun id (Eval.setField i name v)
      (Eval.setField (i.recast ρ) name (v.recast ρ)) := by
  refine .modify fun M ↦ ?_
  simp only [Machine.shifted, Machine.recast, Instance.recast, Store.bind_map]

/-! ## Printing and counting -/

theorem printLine (line : String) :
    Recasts ρ before begun id (Eval.printLine line) (Eval.printLine line) := .modify fun _ ↦ rfl

/-- What has been begun before counts only if there is a limit. -/
theorem step (hbegun : begun = 0 ∨ host.maxSteps = none) :
    Recasts ρ before begun id (Eval.step host) (Eval.step host) := by
  intro M
  have hsteps : (M.shifted ρ before begun).steps + 1 = M.steps + 1 + begun :=
    Nat.add_right_comm _ _ _
  rw [Eval.step_run, Eval.step_run, hsteps]
  cases hlimit : host.maxSteps with
  | none => rfl
  | some limit =>
    obtain rfl : begun = 0 := hbegun.resolve_right fun hnone ↦ by cases hlimit.symm.trans hnone
    dsimp only
    by_cases h : limit < ((M.steps + 1 : Nat) : Int)
    · rw [if_pos h, Nat.add_zero, if_pos h]
      rfl
    · rw [if_neg h, Nat.add_zero, if_neg h]
      rfl

/-! ## Functions and classes -/

theorem newFunction (declaration : FunDecl) (env : Environment) :
    Recasts ρ before begun (Closure.recast ρ) (Eval.newFunction declaration env)
      (Eval.newFunction (declaration.recast ρ) env) := newId.bind fun _ ↦ .pure rfl

theorem bindMethod (method : FunDecl × Environment) (self : Value) :
    Recasts ρ before begun (Closure.recast ρ) (Eval.bindMethod method self)
      (Eval.bindMethod (method.1.recast ρ, method.2) (self.recast ρ)) := by
  have hself : Bindings.ofList [("this", self.recast ρ)]
      = (Bindings.ofList [("this", self)]).map (Value.recast ρ) := rfl
  rw [Eval.bindMethod, Eval.bindMethod, hself]
  exact (newFrame _ _).bind fun env ↦ newFunction _ _

theorem defineClass (name : String) (superclass : Option Class) (methods : List FunDecl) :
    Recasts ρ before begun id (Eval.defineClass name superclass methods)
      (Eval.defineClass name (superclass.map (Class.recast ρ))
        (methods.map (FunDecl.recast ρ))) := by
  rw [Eval.defineClass_eq, Eval.defineClass_eq]
  have himplicit : Bindings.ofList ((superclass.map (Class.recast ρ)).elim []
        fun c ↦ [("super", .class c)])
      = (Bindings.ofList (superclass.elim [] fun c ↦ [("super", .class c)])).map
        (Value.recast ρ) := by
    cases superclass <;> rfl
  have hmethods : Bindings.ofList ((methods.map (FunDecl.recast ρ)).map fun m ↦ (m.name.lexeme, m))
      = (Bindings.ofList (methods.map fun m ↦ (m.name.lexeme, m))).map (FunDecl.recast ρ) := by
    rw [Bindings.map_ofList, List.map_map, List.map_map]
    refine congrArg _ (List.map_congr_left fun d _ ↦ ?_)
    simp only [Function.comp_apply, FunDecl.name_recast, Token.lexeme_moved]
  rw [himplicit, hmethods]
  refine .bind (g := id) (Mirrors.get.bind fun M ↦ newFrame _ _) fun env ↦ newId.bind fun id ↦ ?_
  have hclass : (Class.recast ρ ⟨id, name, superclass,
        Bindings.ofList (methods.map fun m ↦ (m.name.lexeme, m)), env⟩)
      = ⟨id, name, superclass.map (Class.recast ρ),
        (Bindings.ofList (methods.map fun m ↦ (m.name.lexeme, m))).map (FunDecl.recast ρ),
        env⟩ := by
    rw [Class.recast, Class.recastOption_eq_map]
  exact hclass ▸ define name (.class _)

theorem superclass (r : Reference) :
    Recasts ρ before begun (Class.recast ρ) (Eval.superclass r)
      (Eval.superclass (r.recast (.lines ρ.line))) := by
  refine (lookup r).bind fun v ↦ ?_
  cases v with
  | «class» c => exact .pure rfl
  | _ => exact fail _ _

theorem property (object : Value) (name : Token) :
    Recasts ρ before begun (Value.recast ρ) (Eval.property object name)
      (Eval.property (object.recast ρ) (name.moved ρ.line)) := by
  rw [Eval.property.eq_def, Eval.property.eq_def]
  cases object with
  | «instance» i =>
    refine Mirrors.get.bind fun M ↦ ?_
    have hfield : ((M.shifted ρ before begun).objects.record (i.recast ρ).fields).get?
          (name.moved ρ.line).lexeme
        = ((M.objects.record i.fields).get? name.lexeme).map (Value.recast ρ) := by
      simp only [Machine.shifted, Machine.recast, Store.record_map, Bindings.get?_map,
        Instance.recast, Token.lexeme_moved]
    have hmethod : (i.recast ρ).class.findMethod? (name.moved ρ.line).lexeme
        = (i.class.findMethod? name.lexeme).map fun m ↦ (m.1.recast ρ, m.2) :=
      Class.findMethod?_recast ρ i.class name.lexeme
    simp only [Value.recast, hfield, hmethod]
    cases (M.objects.record i.fields).get? name.lexeme with
    | some v => exact .pure rfl
    | none =>
      cases i.class.findMethod? name.lexeme with
      | some m => exact (bindMethod m (.instance i)).map fun _ ↦ rfl
      | none => exact fail _ _
  | _ => exact fail _ _

theorem setProperty (object : Value) (name : Token) (v : Value) :
    Recasts ρ before begun id (Eval.setProperty object name v)
      (Eval.setProperty (object.recast ρ) (name.moved ρ.line) (v.recast ρ)) := by
  cases object with
  | «instance» i => exact setField i name.lexeme v
  | _ => exact fail _ _

theorem inherited (keyword : Reference) (method : Token) :
    Recasts ρ before begun (Value.recast ρ) (Eval.inherited keyword method)
      (Eval.inherited (keyword.recast (.lines ρ.line)) (method.moved ρ.line)) := by
  rw [Eval.inherited.eq_def, Eval.inherited.eq_def, Reference.distance_recast]
  cases keyword.distance with
  | none => exact fail _ _
  | some d =>
    refine (getAt _ _).bind fun parent ↦ (getAt _ _).bind fun self ↦ ?_
    cases parent with
    | «class» c =>
      simp only [Value.recast, Class.findMethod?_recast, Token.lexeme_moved]
      cases c.findMethod? method.lexeme with
      | some m => exact (bindMethod m self).map fun _ ↦ rfl
      | none => exact fail _ _
    | _ => exact stuck

theorem checkCall (callee : Value) (paren : Token) (given : Nat) :
    Recasts ρ before begun id (Eval.checkCall callee paren given)
      (Eval.checkCall (callee.recast ρ) (paren.moved ρ.line) given) := by
  rw [Eval.checkCall.eq_def, Eval.checkCall.eq_def, Value.signature?_recast]
  cases callee.signature? with
  | none => exact fail _ _
  | some signature =>
    dsimp only
    split
    · exact .pure rfl
    · exact fail _ _

theorem callNative (n : Native) (arguments : List Value) :
    Recasts ρ before begun (Value.recast ρ) (Eval.callNative host n arguments)
      (Eval.callNative host n (arguments.map (Value.recast ρ))) := by
  cases n with
  | clock => exact Mirrors.map (g := id) (.modifyGet fun _ ↦ rfl) fun _ ↦ rfl
  | toString =>
    refine .pure ?_
    cases arguments with
    | nil => rfl
    | cons v _ => exact congrArg Value.string (Value.text_recast ρ v).symm

theorem unary (operator : Token) (operand : Value) :
    Recasts ρ before begun (Value.recast ρ) (Eval.ofExcept .issue (Value.unary operator operand))
      (Eval.ofExcept .issue (Value.unary (operator.moved ρ.line) (operand.recast ρ))) := by
  refine ofExcept (h := Issue.moved ρ.line) ?_ fun _ ↦ rfl
  have hnot := Value.isTruthy_recast ρ operand
  rw [Value.unary.eq_def, Value.unary.eq_def, Token.kind_moved]
  cases operator.kind with
  | bang =>
    simp only [hnot]
    rfl
  | minus => cases operand <;> rfl
  | _ => rfl

theorem binary (operator : Token) (left right : Value) :
    Recasts ρ before begun (Value.recast ρ)
      (Eval.ofExcept .issue (Value.binary operator left right))
      (Eval.ofExcept .issue
        (Value.binary (operator.moved ρ.line) (left.recast ρ) (right.recast ρ))) := by
  refine ofExcept (h := Issue.moved ρ.line) ?_ fun _ ↦ rfl
  have hequal := Value.isEqual_recast ρ left right
  rw [Value.binary.eq_def, Value.binary.eq_def, Token.kind_moved]
  cases operator.kind with
  | equalEqual | bangEqual =>
    simp only [hequal]
    rfl
  | plus =>
    cases left with
    | number x | string s => cases right <;> rfl
    | _ => rfl
  | _ =>
    cases left with
    | number x => cases right <;> rfl
    | _ => rfl

end Eval.Recasts

end Lox
