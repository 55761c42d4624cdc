import Lox.Proofs.Outcome
import Lox.Syntax.Scoping

/-!
# The walk leaves what it enters

Whatever the resolver walks over, it leaves as many scopes as it enters, and it forgets the classes
that it has been in. So between two statements at the top of a program it is where it started.
-/

namespace Lox.Scoping

variable {α β : Type}

/-- A part of the walk that returns to as many scopes, in the same class. -/
def Balanced (p : Resolve α) : Prop :=
  ∀ s, Ends p s (fun _ s' ↦ s'.scopes.length = s.scopes.length ∧ s'.setting = s.setting)
    fun _ _ ↦ True

namespace Balanced

variable {p : Resolve α} {q : α → Resolve β}

theorem pure (a : α) : Balanced (Pure.pure a : Resolve α) := fun _ ↦ Ends.pure ⟨rfl, rfl⟩

theorem tooDeep : Balanced (throw .tooDeep : Resolve α) := fun _ ↦ Ends.throw trivial

theorem andThen (hp : Balanced p) (hq : ∀ a, Balanced (q a)) : Balanced (p >>= q) := fun s ↦
  Ends.bind (Ends.mono (hp s) (fun a s₁ ⟨hscopes, hsetting⟩ ↦ Ends.mono (hq a s₁)
    (fun _ _ ⟨hscopes', hsetting'⟩ ↦ ⟨hscopes'.trans hscopes, hsetting'.trans hsetting⟩)
    fun _ _ h ↦ h) fun _ _ h ↦ h)

theorem map {g : α → β} (hp : Balanced p) : Balanced (g <$> p) := by
  rw [← bind_pure_comp]
  exact hp.andThen fun a ↦ pure (g a)

theorem get {f : State → Resolve α} (h : ∀ s, Balanced (f s)) : Balanced (MonadState.get >>= f) :=
  fun s ↦ h s s

theorem forM {ι : Type} {walk : ι → Resolve PUnit} (h : ∀ i, Balanced (walk i)) :
    ∀ items : List ι, Balanced (items.forM walk)
  | [] => pure _
  | i :: items => (h i).andThen fun _ ↦ forM h items

theorem mapM {walk : α → Resolve β} (h : ∀ a, Balanced (walk a)) :
    ∀ items : List α, Balanced (items.mapM walk)
  | [] => pure _
  | a :: items => by
    rw [List.mapM_cons]
    exact (h a).andThen fun _ ↦ (mapM h items).andThen fun _ ↦ pure _

theorem optional {walk : α → Resolve β} (h : ∀ a, Balanced (walk a)) :
    ∀ o : Option α, Balanced (Scoping.optional walk o)
  | none => pure _
  | some a => (h a).map

/-! ## Scopes and names -/

theorem report (name : Token) (error : ScopeError) : Balanced (Scoping.report name error) :=
  fun _ ↦ ⟨rfl, rfl⟩

theorem bindName (name : String) (ready : Bool) : Balanced (Scoping.bind name ready) := by
  intro s
  obtain ⟨scopes, setting, errors, findings⟩ := s
  cases scopes <;> exact ⟨rfl, rfl⟩

theorem declare (name : Token) : Balanced (Scoping.declare name) := by
  refine get fun s ↦ ?_
  split
  · exact (report name _).andThen fun _ ↦ bindName _ _
  · exact bindName _ _

theorem declareReady (name : Token) : Balanced (Scoping.declareReady name) :=
  (declare name).andThen fun _ ↦ bindName _ _

theorem locate (use : Use) (r : Reference) : Balanced (Scoping.locate use r) := by
  refine get fun s ↦ ?_
  cases distance? r.name.lexeme s.scopes with
  | none => exact pure _
  | some d =>
    have hnote : Balanced (modify fun s ↦ { s with findings := ⟨use, r, d⟩ :: s.findings }) :=
      fun _ ↦ ⟨rfl, rfl⟩
    exact hnote.andThen fun _ ↦ pure _

theorem read (r : Reference) : Balanced (Scoping.read r) := by
  refine get fun s ↦ ?_
  split
  · exact (report r.name _).andThen fun _ ↦ locate _ _
  · exact locate _ _

theorem withScope (h : Balanced p) : Balanced (Scoping.withScope p) := by
  intro s
  rw [Ends, Scoping.withScope]
  cases hp : p { s with scopes := .empty :: s.scopes } with
  | ok a s' =>
    obtain ⟨hscopes, hsetting⟩ := (h _).of_ok hp
    refine ⟨?_, hsetting⟩
    rw [List.length_tail, hscopes]
    rfl
  | error e s' => trivial

theorem withSetting (setting : Setting) (h : Balanced p) :
    Balanced (Scoping.withSetting setting p) := by
  intro s
  rw [Ends, Scoping.withSetting]
  cases hp : p { s with setting } with
  | ok a s' => exact ⟨((h _).of_ok hp).1, rfl⟩
  | error e s' => trivial

theorem withClassScopes (inherits : Bool) (h : Balanced p) :
    Balanced (Scoping.withClassScopes inherits p) := by
  have hinner : Balanced (Scoping.withScope (Scoping.bind "this" true >>= fun _ ↦ p)) :=
    withScope ((bindName _ _).andThen fun _ ↦ h)
  rw [Scoping.withClassScopes]
  refine withScope ?_
  cases inherits with
  | true => exact (bindName _ _).andThen fun _ ↦ hinner
  | false => exact hinner

theorem superclass (subclass : Token) (r : Reference) :
    Balanced (Scoping.superclass subclass r) := by
  rw [Scoping.superclass]
  split
  · exact (report r.name _).andThen fun _ ↦ read r
  · exact read r

/-! ## The walk -/

theorem expression : ∀ nesting e, Balanced (Scoping.expression nesting e)
  | 0, _ => tooDeep
  | nesting + 1, e => by
    cases e with
    | literal value => exact pure _
    | group inner | unary operator operand | property object name =>
      exact (expression nesting _).map
    | binary left operator right | logical left operator right =>
      exact (expression nesting left).andThen fun _ ↦ (expression nesting right).andThen fun _ ↦
        pure _
    | var target => exact (read target).map
    | assign target value =>
      exact (expression nesting value).andThen fun _ ↦ (locate _ _).andThen fun _ ↦ pure _
    | setProperty object name value =>
      exact (expression nesting value).andThen fun _ ↦ (expression nesting object).andThen fun _ ↦
        pure _
    | call callee paren arguments =>
      exact (expression nesting callee).andThen fun _ ↦
        (mapM (expression nesting) arguments).andThen fun _ ↦ pure _
    | self keyword => exact (locate _ _).map
    | inherited keyword method =>
      refine get fun s ↦ ?_
      split
      · exact (locate _ _).andThen fun _ ↦ pure _
      · exact pure _

end Balanced

structure BalancedAll (nesting : Nat) : Prop where
  statement : ∀ st, Balanced (Scoping.statement nesting st)
  statements : ∀ body, Balanced (Scoping.statements nesting body)
  classDeclaration : ∀ name parent methods,
    Balanced (Scoping.classDeclaration nesting name parent methods)
  classMethods : ∀ methods, Balanced (Scoping.classMethods nesting methods)
  function : ∀ d, Balanced (Scoping.function nesting d)

namespace BalancedAll

variable {nesting : Nat}

theorem statement_succ (ih : BalancedAll nesting) (st : Stmt) :
    Balanced (Scoping.statement (nesting + 1) st) := by
  have hexpression := Balanced.expression nesting
  have hoptional := Balanced.optional hexpression
  cases st with
  | expression value | print value => exact (hexpression value).map
  | var name initializer =>
    exact (Balanced.declare name).andThen fun _ ↦ (hoptional initializer).andThen fun _ ↦
      (Balanced.bindName _ _).andThen fun _ ↦ .pure _
  | block body => exact (ih.statements body).withScope.map
  | branch condition yes no =>
    exact (hexpression condition).andThen fun _ ↦ (ih.statement yes).andThen fun _ ↦
      (Balanced.optional ih.statement no).andThen fun _ ↦ .pure _
  | loop condition body =>
    exact (hexpression condition).andThen fun _ ↦ (ih.statement body).andThen fun _ ↦ .pure _
  | forLoop initializer condition increment body =>
    exact .withScope ((Balanced.optional ih.statement initializer).andThen fun _ ↦
      (hoptional condition).andThen fun _ ↦ (ih.statement body).andThen fun _ ↦
        (hoptional increment).andThen fun _ ↦ .pure _)
  | function declaration =>
    exact (Balanced.declareReady _).andThen fun _ ↦ (ih.function declaration).map
  | «return» keyword value => exact (hoptional value).map
  | «class» name parent methods => exact ih.classDeclaration name parent methods

theorem of_nesting : ∀ nesting, BalancedAll nesting
  | 0 => ⟨fun _ ↦ .tooDeep, fun _ ↦ .tooDeep, fun _ _ _ ↦ .tooDeep, fun _ ↦ .tooDeep,
      fun _ ↦ .tooDeep⟩
  | nesting + 1 =>
    have ih := of_nesting nesting
    { statement := ih.statement_succ
      statements := .mapM ih.statement
      classDeclaration := fun name _ methods ↦
        .withSetting _ ((Balanced.declareReady name).andThen fun _ ↦
          (Balanced.optional (Balanced.superclass name) _).andThen
            fun _ ↦ (Balanced.withClassScopes _ (ih.classMethods methods)).map)
      classMethods := .mapM ih.function
      function := fun d ↦ by
        obtain ⟨name, parameters, body⟩ := d
        exact .withScope ((Balanced.forM Balanced.declareReady parameters).andThen fun _ ↦
          (ih.statement body).map) }

end BalancedAll

/-- After a whole program the walk is where it started, outside of all scopes and classes. -/
theorem eq_start_of_mapM {nesting : Nat} {program program' : List Stmt}
    {errors : List (Token × ScopeError)} {findings : List Finding} {s' : State}
    (h : program.mapM (statement nesting) ⟨[], .noClass, errors, findings⟩ = .ok program' s') :
    s' = ⟨[], .noClass, s'.errors, s'.findings⟩ := by
  obtain ⟨hscopes, hsetting⟩ :=
    (Balanced.mapM (BalancedAll.of_nesting nesting).statement program _).of_ok h
  obtain ⟨scopes, setting, errors', findings'⟩ := s'
  -- There were no scopes, so there are none.
  obtain rfl : scopes = [] := List.eq_nil_of_length_eq_zero hscopes
  obtain rfl : setting = .noClass := hsetting
  rfl

/-- The walk over a program that is resolved without complaints. -/
theorem resolveProgram_eq_iff {nesting : Nat} {parsed program : List Stmt}
    {findings : List Finding} :
    resolveProgram nesting parsed = ⟨some program, [], findings⟩ ↔
      parsed.mapM (statement nesting) ⟨[], .noClass, [], []⟩
        = .ok program ⟨[], .noClass, [], findings.reverse⟩ := by
  rw [resolveProgram, run]
  constructor
  · intro h
    cases hwalk : parsed.mapM (statement nesting) ⟨[], .noClass, [], []⟩ with
    | ok program' s' =>
      rw [hwalk] at h
      obtain ⟨hprogram, herrors, hfindings⟩ := Resolved.mk.inj h
      rw [eq_start_of_mapM hwalk, List.reverse_eq_nil_iff.mp herrors, ← hfindings,
        List.reverse_reverse, Option.some.inj hprogram]
    | error e s' =>
      rw [hwalk] at h
      cases h
  · intro h
    rw [h]
    exact congrArg (Resolved.mk _ _) (List.reverse_reverse findings)

end Lox.Scoping
