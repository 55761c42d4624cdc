import Lox.Proofs.CutShort
import Lox.Proofs.Scoping.Walk

/-!
# Walks that may nest more deeply

The bound on nested calls decides whether the resolver gets to the end of a program, and never what
it makes of it. Where it does not get to the end, it has complained about what it complains about
first under a larger bound. Where an expression gets through as part of a statement, it gets through
by itself, and outside of all scopes nothing is complained about in either case.
-/

namespace Lox

namespace Scoping

variable {α β : Type} {nesting deeper : Nat}

/-- No complaint and no finding is taken back. -/
structure State.Keeps (s s' : State) : Prop where
  errors : s.errors <:+ s'.errors
  findings : s.findings <:+ s'.findings

theorem State.lasting_keeps : Lasting State.Keeps :=
  ⟨fun _ ↦ ⟨List.suffix_rfl, List.suffix_rfl⟩,
    fun h h' ↦ ⟨h.errors.trans h'.errors, h.findings.trans h'.findings⟩⟩

/-- The second walk does the same wherever the first one does not give up. -/
def Deepens (p q : Resolve α) : Prop := CutShort State.Keeps .tooDeep p q

namespace Deepens

variable {p q : Resolve α}

theorem of_keeping (h : ∀ s, Keeping State.Keeps p s s) : Deepens p p := CutShort.of_keeping h

theorem pure (a : α) : Deepens (Pure.pure a) (Pure.pure a) := CutShort.pure State.lasting_keeps a

theorem throw (e : TooDeep) : Deepens (MonadExcept.throw e : Resolve α) (MonadExcept.throw e) :=
  of_keeping (Keeping.throw State.lasting_keeps e)

theorem bind {f g : α → Resolve β} (h : Deepens p q) (h' : ∀ a, Deepens (f a) (g a)) :
    Deepens (p >>= f) (q >>= g) := CutShort.bind State.lasting_keeps h h'

theorem map {f : α → β} (h : Deepens p q) : Deepens (f <$> p) (f <$> q) :=
  CutShort.map State.lasting_keeps h

theorem mapM {ι : Type} {f g : ι → Resolve α} (h : ∀ i, Deepens (f i) (g i)) (items : List ι) :
    Deepens (items.mapM f) (items.mapM g) := CutShort.mapM State.lasting_keeps h items

theorem forM {ι : Type} {f g : ι → Resolve PUnit} (h : ∀ i, Deepens (f i) (g i)) :
    ∀ items : List ι, Deepens (items.forM f) (items.forM g)
  | [] => pure _
  | i :: items => (h i).bind fun _ ↦ forM h items

theorem optional {ι : Type} {f g : ι → Resolve α} (h : ∀ i, Deepens (f i) (g i)) :
    ∀ i? : Option ι, Deepens (Scoping.optional f i?) (Scoping.optional g i?)
  | none => pure none
  | some i => (h i).map

theorem get {f g : State → Resolve α} (h : ∀ s, Deepens (f s) (g s)) :
    Deepens (MonadState.get >>= f) (MonadState.get >>= g) :=
  ⟨fun s ↦ (h s).keeping s, fun s ↦ (h s).agrees s⟩

theorem of_modify {f : State → State} (h : ∀ s : State, s.Keeps (f s)) :
    Deepens (modify f : Resolve Unit) (modify f) := of_keeping h

/-! ## Scopes and names -/

theorem report (name : Token) (error : ScopeError) :
    Deepens (Scoping.report name error) (Scoping.report name error) :=
  of_modify fun _ ↦ ⟨List.suffix_cons _ _, List.suffix_rfl⟩

theorem bindName (name : String) (ready : Bool) :
    Deepens (Scoping.bind name ready) (Scoping.bind name ready) := by
  refine of_modify fun s ↦ ?_
  cases s.scopes <;> exact ⟨List.suffix_rfl, List.suffix_rfl⟩

theorem declare (name : Token) : Deepens (Scoping.declare name) (Scoping.declare name) := by
  refine get fun s ↦ ?_
  split
  · exact (report name _).bind fun _ ↦ bindName _ _
  · exact bindName _ _

theorem declareReady (name : Token) :
    Deepens (Scoping.declareReady name) (Scoping.declareReady name) :=
  (declare name).bind fun _ ↦ bindName _ _

theorem locate (use : Use) (r : Reference) :
    Deepens (Scoping.locate use r) (Scoping.locate use r) := by
  refine get fun s ↦ ?_
  cases distance? r.name.lexeme s.scopes with
  | none => exact pure _
  | some d =>
    have hnote : Deepens (modify fun s ↦ { s with findings := ⟨use, r, d⟩ :: s.findings })
        (modify fun s ↦ { s with findings := ⟨use, r, d⟩ :: s.findings }) :=
      of_modify fun _ ↦ ⟨List.suffix_rfl, List.suffix_cons _ _⟩
    exact hnote.bind fun _ ↦ pure _

theorem read (r : Reference) : Deepens (Scoping.read r) (Scoping.read r) := by
  refine get fun s ↦ ?_
  split
  · exact (report r.name _).bind fun _ ↦ locate _ _
  · exact locate _ _

theorem superclass (subclass : Token) (r : Reference) :
    Deepens (Scoping.superclass subclass r) (Scoping.superclass subclass r) := by
  rw [Scoping.superclass]
  split
  · exact (report r.name _).bind fun _ ↦ read r
  · exact read r

theorem withScope (h : Deepens p q) : Deepens (Scoping.withScope p) (Scoping.withScope q) := by
  have hkeeping : ∀ {s s₁ : State},
      Keeping State.Keeps q { s with scopes := .empty :: s.scopes } s₁ →
      Keeping State.Keeps (Scoping.withScope q) s { s₁ with scopes := s₁.scopes.tail } := by
    intro s s₁ h
    rw [Keeping, Ends, Scoping.withScope]
    cases hq : q { s with scopes := .empty :: s.scopes } with
    | ok a s' =>
      have hkept : s₁.Keeps s' := h.of_ok hq
      exact ⟨hkept.errors, hkept.findings⟩
    | error e s' =>
      have hkept : s₁.Keeps s' := h.of_error hq
      exact ⟨hkept.errors, hkept.findings⟩
  refine ⟨fun s ↦ hkeeping (h.keeping _), fun s ↦ ?_⟩
  rcases h.agrees { s with scopes := .empty :: s.scopes } with hsame | ⟨s₁, hdeep, hkept⟩
  · exact .inl (by rw [Scoping.withScope, Scoping.withScope, hsame])
  · exact .inr ⟨_, by rw [Scoping.withScope, hdeep], hkeeping hkept⟩

theorem withSetting {setting : Setting} (h : Deepens p q) :
    Deepens (Scoping.withSetting setting p) (Scoping.withSetting setting q) := by
  have hkeeping : ∀ (s : State) {s₁ : State}, Keeping State.Keeps q { s with setting } s₁ →
      Keeping State.Keeps (Scoping.withSetting setting q) s { s₁ with setting := s.setting } := by
    intro s s₁ h
    rw [Keeping, Ends, Scoping.withSetting]
    cases hq : q { s with setting } with
    | ok a s' =>
      have hkept : s₁.Keeps s' := h.of_ok hq
      exact ⟨hkept.errors, hkept.findings⟩
    | error e s' =>
      have hkept : s₁.Keeps s' := h.of_error hq
      exact ⟨hkept.errors, hkept.findings⟩
  refine ⟨fun s ↦ ?_, fun s ↦ ?_⟩
  · have hkept := hkeeping s (h.keeping { s with setting })
    exact hkept
  · rcases h.agrees { s with setting } with hsame | ⟨s₁, hdeep, hkept⟩
    · exact .inl (by rw [Scoping.withSetting, Scoping.withSetting, hsame])
    · exact .inr ⟨_, by rw [Scoping.withSetting, hdeep], hkeeping s hkept⟩

theorem withClassScopes (inherits : Bool) (h : Deepens p q) :
    Deepens (Scoping.withClassScopes inherits p) (Scoping.withClassScopes inherits q) := by
  have hinner : Deepens (Scoping.withScope (Scoping.bind "this" true >>= fun _ ↦ p))
      (Scoping.withScope (Scoping.bind "this" true >>= fun _ ↦ q)) :=
    withScope ((bindName _ _).bind fun _ ↦ h)
  rw [Scoping.withClassScopes, Scoping.withClassScopes]
  refine withScope ?_
  cases inherits with
  | true => exact (bindName _ _).bind fun _ ↦ hinner
  | false => exact hinner

end Deepens

/-! ## Expressions -/

theorem deepens_expression_succ
    (ih : ∀ e, Deepens (expression nesting e) (expression deeper e)) (e : Expr) :
    Deepens (expression (nesting + 1) e) (expression (deeper + 1) e) := by
  cases e with
  | literal value => exact .pure _
  | var target => exact (Deepens.read target).map
  | self keyword => exact (Deepens.locate _ _).map
  | inherited keyword method =>
    refine .get fun s ↦ ?_
    split
    · exact (Deepens.locate _ _).bind fun _ ↦ .pure _
    · exact .pure _
  | group inner | unary operator inner | property inner name => exact (ih inner).map
  | binary left operator right | logical left operator right =>
    exact (ih left).bind fun _ ↦ (ih right).bind fun _ ↦ .pure _
  | assign target value =>
    exact (ih value).bind fun _ ↦ (Deepens.locate _ _).bind fun _ ↦ .pure _
  | setProperty object name value =>
    exact (ih value).bind fun _ ↦ (ih object).bind fun _ ↦ .pure _
  | call callee paren arguments =>
    exact (ih callee).bind fun _ ↦ (Deepens.mapM ih arguments).bind fun _ ↦ .pure _

theorem deepens_expression_refl : ∀ (nesting : Nat) (e : Expr),
    Deepens (expression nesting e) (expression nesting e)
  | 0, _ => .throw .tooDeep
  | nesting + 1, e => deepens_expression_succ (deepens_expression_refl nesting) e

/-- The bound on nested calls only decides whether an expression gets through. -/
theorem deepens_expression : ∀ {nesting deeper : Nat}, nesting ≤ deeper → ∀ e : Expr,
    Deepens (expression nesting e) (expression deeper e)
  | 0, deeper, _, e => .of_stopped (deepens_expression_refl deeper e).keeping
  | _ + 1, _ + 1, hle, e =>
    deepens_expression_succ (deepens_expression (Nat.le_of_succ_le_succ hle)) e

/-! ## Statements -/

/-- The parts of the walk over statements, under two bounds on nested calls. -/
structure DeepensStatements (nesting deeper : Nat) : Prop where
  statement : ∀ st, Deepens (Scoping.statement nesting st) (Scoping.statement deeper st)
  statements : ∀ body, Deepens (Scoping.statements nesting body) (Scoping.statements deeper body)
  classDeclaration : ∀ name parent methods,
    Deepens (Scoping.classDeclaration nesting name parent methods)
      (Scoping.classDeclaration deeper name parent methods)
  classMethods : ∀ methods,
    Deepens (Scoping.classMethods nesting methods) (Scoping.classMethods deeper methods)
  function : ∀ declaration,
    Deepens (Scoping.function nesting declaration) (Scoping.function deeper declaration)

namespace DeepensStatements

theorem statement_succ (hexpression : ∀ e, Deepens (expression nesting e) (expression deeper e))
    (ih : DeepensStatements nesting deeper) (st : Stmt) :
    Deepens (Scoping.statement (nesting + 1) st) (Scoping.statement (deeper + 1) st) := by
  cases st with
  | expression value | print value => exact (hexpression value).map
  | var name initializer =>
    exact (Deepens.declare name).bind fun _ ↦ (Deepens.optional hexpression initializer).bind
      fun _ ↦ (Deepens.bindName _ _).bind fun _ ↦ .pure _
  | block body => exact (Deepens.withScope (ih.statements body)).map
  | branch condition yes no =>
    exact (hexpression condition).bind fun _ ↦ (ih.statement yes).bind fun _ ↦
      (Deepens.optional ih.statement no).bind fun _ ↦ .pure _
  | loop condition body =>
    exact (hexpression condition).bind fun _ ↦ (ih.statement body).bind fun _ ↦ .pure _
  | forLoop initializer condition increment body =>
    exact .withScope ((Deepens.optional ih.statement initializer).bind fun _ ↦
      (Deepens.optional hexpression condition).bind fun _ ↦ (ih.statement body).bind fun _ ↦
        (Deepens.optional hexpression increment).bind fun _ ↦ .pure _)
  | function declaration =>
    exact (Deepens.declareReady _).bind fun _ ↦ (ih.function declaration).map
  | «return» keyword value => exact (Deepens.optional hexpression value).map
  | «class» name parent methods => exact ih.classDeclaration name parent methods

/-- One more nested call on either side. -/
theorem succ (hexpression : ∀ e, Deepens (expression nesting e) (expression deeper e))
    (ih : DeepensStatements nesting deeper) : DeepensStatements (nesting + 1) (deeper + 1) where
  statement := ih.statement_succ hexpression
  statements := .mapM ih.statement
  classDeclaration name parent methods :=
    .withSetting ((Deepens.declareReady name).bind fun _ ↦
      (Deepens.optional (Deepens.superclass name) parent).bind fun _ ↦
        (Deepens.withClassScopes _ (ih.classMethods methods)).map)
  classMethods := .mapM ih.function
  function declaration := by
    obtain ⟨_, parameters, body⟩ := declaration
    exact .withScope ((Deepens.forM Deepens.declareReady parameters).bind fun _ ↦
      (ih.statement body).map)

theorem refl : ∀ nesting, DeepensStatements nesting nesting
  | 0 =>
    { statement := fun _ ↦ .throw .tooDeep
      statements := fun _ ↦ .throw .tooDeep
      classDeclaration := fun _ _ _ ↦ .throw .tooDeep
      classMethods := fun _ ↦ .throw .tooDeep
      function := fun _ ↦ .throw .tooDeep }
  | nesting + 1 => (refl nesting).succ (deepens_expression_refl nesting)

theorem of_le : ∀ {nesting deeper}, nesting ≤ deeper → DeepensStatements nesting deeper
  | 0, deeper, _ =>
    have hself : DeepensStatements deeper deeper := refl deeper
    { statement := fun st ↦ .of_stopped (hself.statement st).keeping
      statements := fun body ↦ .of_stopped (hself.statements body).keeping
      classDeclaration := fun name parent methods ↦
        .of_stopped (hself.classDeclaration name parent methods).keeping
      classMethods := fun methods ↦ .of_stopped (hself.classMethods methods).keeping
      function := fun declaration ↦ .of_stopped (hself.function declaration).keeping }
  | _ + 1, _ + 1, hle =>
    (of_le (Nat.le_of_succ_le_succ hle)).succ (deepens_expression (Nat.le_of_succ_le_succ hle))

end DeepensStatements

/-- A walk that may nest more deeply has the same outcome, or the first one has none. Where it has
none, it has complained about what the other one complains about first. -/
theorem run_of_deepens {p q : Resolve α} (h : Deepens p q) :
    ((run p).result = none ∧ (run p).errors <+: (run q).errors) ∨ run p = run q := by
  rw [run, run]
  rcases h.agrees ⟨[], .noClass, [], []⟩ with hsame | ⟨s₁, hdeep, hkept⟩
  · exact .inr (by rw [hsame])
  · refine .inl ?_
    rw [hdeep]
    refine ⟨rfl, ?_⟩
    cases hq : q ⟨[], .noClass, [], []⟩ with
    | ok a s => exact List.reverse_prefix.mpr (hkept.of_ok hq).errors
    | error e s => exact List.reverse_prefix.mpr (hkept.of_error hq).errors

/-- Whatever the bound is, an expression that gets through has its distances filled in. -/
theorem expression_tooDeep_or_eq {ctx : Context} {awaiting : Option String} {s : State}
    (hs : s.Faces ctx awaiting) (nesting : Nat) (e : Expr) :
    (∃ s', expression nesting e s = .error .tooDeep s') ∨
      expression nesting e s = .ok (e.located ctx) (s.noting (e.mentions ctx awaiting)) := by
  have henough : expression (max nesting (sizeOf e)) e s
      = .ok (e.located ctx) (s.noting (e.mentions ctx awaiting)) :=
    expression_eq (Nat.le_max_right _ _) hs
  rw [← henough]
  rcases (deepens_expression (Nat.le_max_left _ _) e).agrees s with hsame | ⟨s', hdeep, -⟩
  · exact .inr hsame.symm
  · exact .inl ⟨s', hdeep⟩

end Scoping

/-! ## Programs -/

section Programs

variable {nesting deeper : Nat}

theorem resolveProgram_deeper (hle : nesting ≤ deeper) (program : List Stmt) :
    ((resolveProgram nesting program).result = none ∧
      (resolveProgram nesting program).errors <+: (resolveProgram deeper program).errors) ∨
        resolveProgram nesting program = resolveProgram deeper program :=
  Scoping.run_of_deepens (.mapM (Scoping.DeepensStatements.of_le hle).statement program)

/-- Whatever the bound is, a program that gets through has its distances filled in. -/
theorem resolveProgram_of_some {program resolved : List Stmt}
    (h : (resolveProgram nesting program).result = some resolved) :
    resolveProgram nesting program = ⟨some (Stmt.locatedRow [] program),
      (Stmt.mentionsRow [] program).filterMap Mention.complaint?,
      (Stmt.mentionsRow [] program).filterMap Mention.finding?⟩ := by
  rw [← resolveProgram_eq (Nat.le_max_right nesting (sizeOf program))]
  refine (resolveProgram_deeper (Nat.le_max_left _ _) program).resolve_left fun ⟨hnone, _⟩ ↦ ?_
  rw [hnone] at h
  cases h

/-- Whatever the bound is, an expression that gets through has its distances filled in. -/
theorem resolveExpression_of_some {e resolved : Expr}
    (h : (resolveExpression nesting e).result = some resolved) :
    resolveExpression nesting e = ⟨some (e.located []),
      (e.mentions [] none).filterMap Mention.complaint?,
      (e.mentions [] none).filterMap Mention.finding?⟩ := by
  rw [resolveExpression, Scoping.run] at h ⊢
  rcases Scoping.expression_tooDeep_or_eq .start nesting e with ⟨s', hdeep⟩ | hwalk
  · rw [hdeep] at h
    cases h
  · rw [hwalk]
    simp [Scoping.State.noting]

end Programs

/-! ## Outside of all scopes -/

mutual

/-- There is nothing wrong with an expression unless a variable is on the way. -/
theorem Expr.complaints_eq_nil (ctx : Context) : ∀ e : Expr,
    (e.mentions ctx none).filterMap Mention.complaint? = []
  | .literal _ | .var _ | .self _ | .inherited _ _ => rfl
  | .group inner | .unary _ inner | .property inner _ => Expr.complaints_eq_nil ctx inner
  | .binary left _ right | .logical left _ right => by
    rw [Expr.mentions, List.filterMap_append, Expr.complaints_eq_nil ctx left,
      Expr.complaints_eq_nil ctx right]
    rfl
  | .assign _ value => by
    rw [Expr.mentions, List.filterMap_append, Expr.complaints_eq_nil ctx value]
    rfl
  | .setProperty object _ value => by
    rw [Expr.mentions, List.filterMap_append, Expr.complaints_eq_nil ctx object,
      Expr.complaints_eq_nil ctx value]
    rfl
  | .call callee _ arguments => by
    rw [Expr.mentions, List.filterMap_append, Expr.complaints_eq_nil ctx callee,
      Expr.complaintsRow_eq_nil ctx arguments]
    rfl

theorem Expr.complaintsRow_eq_nil (ctx : Context) : ∀ es : List Expr,
    (Expr.mentionsRow ctx none es).filterMap Mention.complaint? = []
  | [] => rfl
  | e :: es => by
    rw [Expr.mentionsRow, List.filterMap_append, Expr.complaints_eq_nil ctx e,
      Expr.complaintsRow_eq_nil ctx es]
    rfl

end

/-- An expression whose value can be printed is resolved alike by itself. -/
theorem resolve_print {nesting : Nat} {e : Expr}
    (h : (resolveProgram nesting [.print e]).result.isSome = true) :
    ∃ findings, resolveProgram nesting [.print e] = ⟨some [.print (e.located [])], [], findings⟩ ∧
      resolveExpression nesting e = ⟨some (e.located []), [], findings⟩ := by
  have hcomplaints := Expr.complaints_eq_nil [] e
  rw [resolveProgram, Scoping.run] at h ⊢
  rw [resolveExpression, Scoping.run]
  cases nesting with
  | zero => cases h
  | succ nesting =>
    rcases Scoping.expression_tooDeep_or_eq .start nesting e with ⟨s', hdeep⟩ | hinner
    · have hwalk : [Stmt.print e].mapM (Scoping.statement (nesting + 1)) ⟨[], .noClass, [], []⟩
          = .error .tooDeep s' := by
        rw [List.mapM_cons, Scoping.statement, ← bind_pure_comp, bind_assoc, bind_of_error hdeep]
      rw [hwalk] at h
      cases h
    · have hwalk : [Stmt.print e].mapM (Scoping.statement (nesting + 1)) ⟨[], .noClass, [], []⟩
          = .ok [.print (e.located [])]
            (Scoping.State.noting ⟨[], .noClass, [], []⟩ (e.mentions [] none)) := by
        rw [List.mapM_cons, Scoping.statement, bind_of_ok (map_of_ok hinner)]
        rfl
      -- What gets through inside of a statement does so with one more nested call.
      have houter : Scoping.expression (nesting + 1) e ⟨[], .noClass, [], []⟩
          = Scoping.expression nesting e ⟨[], .noClass, [], []⟩ := by
        refine ((Scoping.deepens_expression (Nat.le_succ nesting) e).agrees _).resolve_right ?_
        rintro ⟨s', hdeep, -⟩
        cases hdeep.symm.trans hinner
      rw [hwalk, houter, hinner]
      refine ⟨(e.mentions [] none).filterMap Mention.finding?, ?_, ?_⟩ <;>
        simp [Scoping.State.noting, hcomplaints]

end Lox
