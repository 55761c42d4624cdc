import Lox.Proofs.Scoping.Resolution.Expression

/-!
# What the walk over the scopes fills in for statements

The same for statements, functions and classes. The walk leaves a scope where it has entered it, and
behind a statement it is at the context that the statement leads to. A program for which it has
nothing to complain about is then right as a whole.
-/

namespace Lox.Scoping

variable {α β : Type} {s s' : State} {p : Resolve α} {q : α → Resolve β} {ctx : Context}
  {x : String}
  {excused : String → Prop}

/-! ## Statements -/

namespace Resolves

variable {R : α → State → Prop}

theorem withScope (h : Resolves p { s with scopes := .empty :: s.scopes } fun a s' ↦
    R a { s' with scopes := s'.scopes.tail }) : Resolves (Scoping.withScope p) s R := by
  intro a s' hp herrors
  rw [Scoping.withScope] at hp
  split at hp <;> cases hp
  rename_i s₁ hp
  exact h a s₁ hp herrors

theorem withSetting {setting : Setting} (h : Resolves p { s with setting } fun a s' ↦
    R a { s' with setting := s.setting }) : Resolves (Scoping.withSetting setting p) s R := by
  intro a s' hp herrors
  rw [Scoping.withSetting] at hp
  split at hp <;> cases hp
  rename_i s₁ hp
  exact h a s₁ hp herrors

theorem step {a : α} {s₁ : State} {S : β → State → Prop} (hp : p s = .ok a s₁)
    (herrors : s₁.errors = s.errors) (hq : Resolves (q a) s₁ S) : Resolves (p >>= q) s S := by
  intro b s' h hs'
  rw [bind_of_ok hp] at h
  exact ⟨herrors ▸ (hq b s' h hs').1, (hq b s' h hs').2⟩

/-- The scopes of a class around what is inside it. -/
theorem withClassScopes {inherits : Bool}
    (h : Resolves p { s with scopes := Bindings.insert .empty "this" true ::
        (if inherits then Bindings.insert .empty "super" true else .empty) :: s.scopes } fun a s' ↦
      R a { s' with scopes := s'.scopes.tail.tail }) :
    Resolves (Scoping.withClassScopes inherits p) s R := by
  cases inherits with
  | false => exact withScope (withScope (step rfl rfl h))
  | true => exact withScope (step rfl rfl (withScope (step rfl rfl h)))

end Resolves

namespace State.At

theorem enter (hs : s.At ctx none) :
    State.At { s with scopes := .empty :: s.scopes } (.names [] :: ctx) none :=
  ⟨.cons (fun _ ↦ rfl) hs.scopes, hs.setting, fun _ h ↦ by cases h⟩

theorem leave {xs : List String} (hs : s.At (.names xs :: ctx) none) :
    State.At { s with scopes := s.scopes.tail } ctx none := by
  refine ⟨?_, hs.setting, fun _ h ↦ by cases h⟩
  obtain ⟨scope, outer, -, houter, hscopes⟩ := List.forall₂_cons_left_iff.mp hs.scopes
  rw [hscopes]
  exact houter

end State.At

/-- The order of the names in a scope does not matter. -/
theorem matches_reorder {xs ys : List String} {scopes : List Scope}
    (h : Context.Matches (.names xs :: ctx) none scopes) (hxs : ∀ x, x ∈ xs ↔ x ∈ ys) :
    Context.Matches (.names ys :: ctx) none scopes := by
  obtain ⟨scope, outer, hscope, houter, rfl⟩ := List.forall₂_cons_left_iff.mp h
  have hbinds : ∀ x, (Layer.names xs).binds x = (Layer.names ys).binds x := fun x ↦ by
    simp [Layer.binds, hxs x]
  exact .cons (fun x ↦ by rw [hscope x, hbinds x]) houter

/-- A name that is declared is on the way, unless it is a global. -/
theorem matches_await {scopes : List Scope} (h : ctx.Matches none scopes) (hopen : ctx.IsOpen)
    (hnew : ∀ scope ∈ scopes.head?, scope.contains x = false) :
    ctx.Admits x ∧ ctx.Matches (ctx.awaiting x) (bound x false scopes) := by
  match ctx, hopen with
  | [], _ =>
    rw [List.forall₂_nil_left_iff.mp h]
    exact ⟨trivial, .nil⟩
  | .names xs :: outer, _ =>
    obtain ⟨scope, scopes, hscope, houter, rfl⟩ := List.forall₂_cons_left_iff.mp h
    have hbinds := hnew scope rfl
    rw [contains_eq_binds hscope] at hbinds
    exact ⟨of_decide_eq_false hbinds, scope, scopes, rfl, .cons hscope houter⟩

/-- When its initializer is done with, a variable is there. -/
theorem matches_declare {scopes : List Scope} (h : ctx.Matches (ctx.awaiting x) scopes)
    (hopen : ctx.IsOpen) : (ctx.declare x).Matches none (bound x true scopes) := by
  match ctx, hopen with
  | [], _ =>
    rw [List.forall₂_nil_left_iff.mp h]
    exact .nil
  | .names xs :: outer, _ =>
    obtain ⟨scope, scopes, rfl, hmatches⟩ := h
    obtain ⟨hscope, houter⟩ := List.forall₂_cons.mp hmatches
    refine .cons (fun y ↦ ?_) houter
    by_cases hxy : y = x
    · rw [hxy, Bindings.get?_insert_self]
      exact (if_pos (decide_eq_true List.mem_cons_self)).symm
    · rw [Bindings.get?_insert_of_ne hxy, Bindings.get?_insert_of_ne hxy, hscope y]
      simp [Layer.binds, hxy]

namespace State.At

theorem await (hs : s.At ctx none) (hopen : ctx.IsOpen) (hx : Ordinary x)
    (hnew : ∀ scope ∈ s.scopes.head?, scope.contains x = false)
    (hscopes : s'.scopes = bound x false s.scopes) (hsetting : s'.setting = s.setting) :
    ctx.Admits x ∧ s'.At ctx (ctx.awaiting x) := by
  obtain ⟨hadmits, hmatches⟩ := matches_await hs.scopes hopen hnew
  refine ⟨hadmits, hscopes ▸ hmatches, hsetting ▸ hs.setting, fun y hy ↦ ?_⟩
  match ctx, hy with
  | _ :: _, hy =>
    obtain rfl : x = y := Option.some.inj hy
    exact hx

theorem ready (hs : s.At ctx (ctx.awaiting x)) (hopen : ctx.IsOpen)
    (hscopes : s'.scopes = bound x true s.scopes) (hsetting : s'.setting = s.setting) :
    s'.At (ctx.declare x) none := by
  refine ⟨hscopes ▸ matches_declare hs.scopes hopen, ?_, fun _ h ↦ by cases h⟩
  rw [hsetting, Context.inherits_declare]
  exact hs.setting

end State.At

/-- A name that needs no initializer is there at once. -/
theorem resolves_declareReady (name : Token) (s : State) :
    Resolves (declareReady name) s fun _ s' ↦ s'.setting = s.setting ∧
      ∀ ctx : Context, ctx.Matches none s.scopes → ctx.IsOpen →
        ctx.Admits name.lexeme ∧ (ctx.declare name.lexeme).Matches none s'.scopes := by
  refine (resolves_declare name s).andThen fun _ s₁ ↦ (resolves_bind _ _ s₁).mono
    fun _ s' h₂ h₁ ↦ ⟨h₂.2.trans h₁.2.1, fun ctx hs hopen ↦ ?_⟩
  obtain ⟨hadmits, hs₁⟩ := matches_await hs hopen h₁.2.2
  rw [h₂.1, h₁.1]
  exact ⟨hadmits, matches_declare hs₁ hopen⟩

theorem State.At.declare (hs : s.At ctx none) (hsetting : s'.setting = s.setting)
    (h : (ctx.declare x).Matches none s'.scopes) : s'.At (ctx.declare x) none := by
  refine ⟨h, ?_, fun _ h ↦ by cases h⟩
  rw [hsetting, Context.inherits_declare]
  exact hs.setting

/-- What the walk makes of a statement. -/
def FillsStatement (excused : String → Prop) (s : State) (st st' : Stmt) (s' : State) : Prop :=
  ∀ ctx inside, s.At ctx none → ctx.IsOpen → st.Shaped inside →
    (∀ x, st'.selfAssigns x (!ctx.isEmpty) = true → excused x) →
    s'.At (ctx.after st) none ∧ st'.declared? = st.declared? ∧ st'.Scoped excused inside ctx

/-- What the walk makes of a row of statements. -/
def FillsBody (excused : String → Prop) (s : State) (body body' : List Stmt) (s' : State) : Prop :=
  ∀ ctx inside, s.At ctx none → ctx.IsOpen → (∀ st ∈ body, st.Shaped inside) →
    (∀ x, Stmt.anySelfAssigns x (!ctx.isEmpty) body' = true → excused x) →
    s'.At (body.foldl Context.after ctx) none ∧ Stmt.RowScoped excused inside ctx body'

/-- What the walk makes of a function. -/
def FillsFunction (excused : String → Prop) (s : State) (f f' : FunDecl) (s' : State) : Prop :=
  ∀ ctx, s.At ctx none → f.Shaped → (∀ x, f'.selfAssigns x = true → excused x) →
    s'.At ctx none ∧ f'.name = f.name ∧ f'.Scoped excused ctx

/-- What the walk makes of the methods of a class. -/
def FillsMethods (excused : String → Prop) (s : State) (fs fs' : List FunDecl) (s' : State) :
    Prop :=
  ∀ ctx, s.At ctx none → (∀ f ∈ fs, f.Shaped) →
    (∀ x, FunDecl.anySelfAssigns x fs' = true → excused x) →
    s'.At ctx none ∧ ∀ f' ∈ fs', f'.Scoped excused ctx

/-- What the walk makes of everything that it may still nest. -/
structure FillsAll (excused : String → Prop) (nesting : Nat) : Prop where
  statement : ∀ st s, Resolves (statement nesting st) s (FillsStatement excused s st)
  statements : ∀ body s, Resolves (statements nesting body) s (FillsBody excused s body)
  classDeclaration : ∀ name parent methods s,
    Resolves (classDeclaration nesting name parent methods) s
      (FillsStatement excused s (.class name parent methods))
  classMethods : ∀ fs s, Resolves (classMethods nesting fs) s (FillsMethods excused s fs)
  function : ∀ f s, Resolves (function nesting f) s (FillsFunction excused s f)

theorem resolves_body {walk : Stmt → Resolve Stmt}
    (h : ∀ st s, Resolves (walk st) s (FillsStatement excused s st)) (body : List Stmt)
    (s : State) :
    Resolves (body.mapM walk) s (FillsBody excused s body) := by
  refine Resolves.mapM h (fun s ctx inside hs _ _ _ ↦ ⟨hs, .nil⟩) ?_ body s
  intro s s₁ s₂ st rest st' rest' hfirst hrest ctx inside hs hopen hshaped hexcused
  rw [List.forall_mem_cons] at hshaped
  simp only [Stmt.anySelfAssigns, Bool.or_eq_true, or_imp, forall_and] at hexcused
  obtain ⟨hs₁, hdeclared, hscoped⟩ := hfirst ctx inside hs hopen hshaped.1 hexcused.1
  have hafter : ctx.after st' = ctx.after st := by rw [Context.after, Context.after, hdeclared]
  obtain ⟨hs₂, hrow⟩ := hrest (ctx.after st) inside hs₁ (Context.isOpen_after hopen st) hshaped.2
    (by rw [Context.isEmpty_after]; exact hexcused.2)
  rw [← hafter] at hrow
  exact ⟨hs₂, .cons hscoped hrow⟩

theorem resolves_methods {walk : FunDecl → Resolve FunDecl}
    (h : ∀ f s, Resolves (walk f) s (FillsFunction excused s f)) (fs : List FunDecl) (s : State) :
    Resolves (fs.mapM walk) s (FillsMethods excused s fs) := by
  refine Resolves.mapM h (fun s ctx hs _ _ ↦ ⟨hs, List.forall_mem_nil _⟩) ?_ fs s
  intro s s₁ s₂ f rest f' rest' hfirst hrest ctx hs hshaped hexcused
  rw [List.forall_mem_cons] at hshaped
  simp only [FunDecl.anySelfAssigns, Bool.or_eq_true, or_imp, forall_and] at hexcused
  obtain ⟨hs₁, -, hscoped⟩ := hfirst ctx hs hshaped.1 hexcused.1
  obtain ⟨hs₂, hrow⟩ := hrest ctx hs₁ hshaped.2 hexcused.2
  exact ⟨hs₂, List.forall_mem_cons.mpr ⟨hscoped, hrow⟩⟩

/-- An expression in a place where no variable is on the way. -/
theorem Fills.scoped {s s' : State} {e e' : Expr} (h : Fills excused s e e' s')
    (hs : s.At ctx none) (hshaped : e.Shaped) :
    s'.At ctx none ∧ e'.Scoped excused ctx none :=
  ⟨h.1.place hs, h.2 ctx none hs hshaped fun _ h ↦ by cases h⟩

/-- The same for an expression that may be absent. -/
def FillsOptional (excused : String → Prop) (s : State) (o o' : Option Expr) (s' : State) : Prop :=
  Stays s s' ∧ o'.isSome = o.isSome ∧ ∀ ctx pending, s.At ctx pending → (∀ e ∈ o, e.Shaped) →
    (∀ x, pending = some x → o'.any (Expr.assigns x) = true → excused x) →
    ∀ e' ∈ o', e'.Scoped excused ctx pending

theorem resolves_optional (nesting : Nat) (o : Option Expr) (s : State) :
    Resolves (optional (expression nesting) o) s (FillsOptional excused s o) := by
  refine Resolves.optional ⟨⟨rfl, rfl⟩, rfl, fun _ _ _ _ _ _ h ↦ by cases h⟩ (fun e ↦ ?_) o
  have he : Resolves (expression nesting e) s (Fills excused s e) := resolves_expression nesting e s
  refine he.mono fun e' s' ⟨hstays, h⟩ ↦
    ⟨hstays, rfl, fun ctx pending hs hshaped hexcused ↦ ?_⟩
  rintro _ ⟨⟩
  exact h ctx pending hs (hshaped e rfl) hexcused

theorem FillsOptional.scoped {s s' : State} {o o' : Option Expr}
    (h : FillsOptional excused s o o' s') (hs : s.At ctx none) (hshaped : ∀ e ∈ o, e.Shaped) :
    s'.At ctx none ∧ ∀ e' ∈ o', e'.Scoped excused ctx none :=
  ⟨h.1.place hs, h.2.2 ctx none hs hshaped fun _ h ↦ by cases h⟩

/-- What the walk makes of a statement that may be absent. -/
def FillsOptionalStatement (excused : String → Prop) (s : State) (o o' : Option Stmt) (s' : State) :
    Prop :=
  ∀ ctx inside, s.At ctx none → ctx.IsOpen → (∀ st ∈ o, st.Shaped inside) →
    (∀ st' ∈ o', ∀ x, st'.selfAssigns x (!ctx.isEmpty) = true → excused x) →
    s'.At (o.elim ctx ctx.after) none ∧ o'.map Stmt.declared? = o.map Stmt.declared? ∧
      ∀ st' ∈ o', st'.Scoped excused inside ctx

theorem resolves_optional_statement {walk : Stmt → Resolve Stmt}
    (h : ∀ st s, Resolves (walk st) s (FillsStatement excused s st)) (o : Option Stmt) (s : State) :
    Resolves (optional walk o) s (FillsOptionalStatement excused s o) := by
  refine Resolves.optional (fun ctx inside hs _ _ _ ↦ ⟨hs, rfl, fun _ h ↦ by cases h⟩)
    (fun st ↦ ?_) o
  refine (h st s).mono fun st' s' h ctx inside hs hopen hshaped hexcused ↦ ?_
  obtain ⟨hs', hdeclared, hscoped⟩ := h ctx inside hs hopen (hshaped st rfl) (hexcused st' rfl)
  refine ⟨hs', congrArg some hdeclared, ?_⟩
  rintro _ ⟨⟩
  exact hscoped

/-- The walk stays in its context behind a statement that declares nothing. -/
theorem FillsStatement.plain {s s' : State} {st st' : Stmt} {inside : Bool}
    (h : FillsStatement excused s st st' s') (hs : s.At ctx none) (hopen : ctx.IsOpen)
    (hshaped : st.Shaped inside) (hplain : st.declared? = none)
    (hexcused : ∀ x, st'.selfAssigns x (!ctx.isEmpty) = true → excused x) :
    s'.At ctx none ∧ st'.Scoped excused inside ctx ∧ st'.declared? = none := by
  obtain ⟨hs', hdeclared, hscoped⟩ := h ctx inside hs hopen hshaped hexcused
  rw [Context.after_eq_self hplain] at hs'
  exact ⟨hs', hscoped, hdeclared.trans hplain⟩

/-! ### Declarations -/

theorem resolves_var (nesting : Nat) (name : Token) (initializer : Option Expr) (s : State) :
    Resolves (statement (nesting + 1) (.var name initializer)) s
      (FillsStatement excused s (.var name initializer)) := by
  have hinitializer : ∀ s, Resolves (optional (expression nesting) initializer) s
    (FillsOptional excused s initializer) := resolves_optional nesting initializer
  refine (resolves_declare name s).andThen fun _ s₁ ↦ (hinitializer s₁).andThen
    fun initializer' s₂ ↦ (resolves_bind name.lexeme true s₂).andThen fun _ s₃ ↦ Resolves.pure ?_
  intro hbound hfills hdeclared ctx inside hs hopen hshaped hexcused
  cases hshaped with
  | var hname hshaped =>
    obtain ⟨hadmits, hs₁⟩ := hs.await hopen hname hdeclared.2.2 hdeclared.1 hdeclared.2.1
    refine ⟨(hfills.1.place hs₁).ready hopen hbound.1 hbound.2, rfl, .var hname hadmits ?_⟩
    refine hfills.2.2 ctx _ hs₁ hshaped fun x hx hassigns ↦ hexcused x ?_
    cases ctx with
    | nil => cases hx
    | cons =>
      obtain rfl : name.lexeme = x := Option.some.inj hx
      simp [Stmt.selfAssigns, hassigns]

theorem resolves_function_statement {nesting : Nat} (ih : FillsAll excused nesting) (f : FunDecl)
    (s : State) : Resolves (statement (nesting + 1) (.function f)) s
      (FillsStatement excused s (.function f)) := by
  refine (resolves_declareReady f.name s).andThen fun _ s₁ ↦ (ih.function f s₁).map fun f' s' ↦ ?_
  intro hf ⟨hsetting, hdeclared⟩ ctx inside hs hopen hshaped hexcused
  cases hshaped with
  | function hname hshaped =>
    obtain ⟨hadmits, hs₁⟩ := hdeclared ctx hs.scopes hopen
    obtain ⟨hs', hf', hscoped⟩ := hf (ctx.declare f.name.lexeme) (hs.declare hsetting hs₁)
      hshaped hexcused
    refine ⟨hs', congrArg some hf', .function ?_ ?_ ?_⟩
    · rw [hf']
      exact hname
    · rw [hf']
      exact hadmits
    · rw [hf']
      exact hscoped

/-- The parameters of a function are declared in the scope around its body. -/
theorem resolves_parameters (parameters : List Token) (s : State) :
    Resolves (parameters.forM declareReady) s fun _ s' ↦ s'.setting = s.setting ∧
      ∀ xs (outer : Context), Context.Matches (.names xs :: outer) none s.scopes →
        (parameters.map Token.lexeme).Nodup ∧ (∀ p ∈ parameters, p.lexeme ∉ xs) ∧
          Context.Matches (.names (parameters.map Token.lexeme ++ xs) :: outer) none s'.scopes := by
  induction parameters generalizing s with
  | nil => exact Resolves.pure ⟨rfl, fun xs outer hs ↦ ⟨.nil, List.forall_mem_nil _, hs⟩⟩
  | cons p parameters ih =>
    refine (resolves_declareReady p s).andThen fun _ s₁ ↦ (ih s₁).mono ?_
    intro _ s' ⟨hsetting', hrest⟩ ⟨hsetting, hfirst⟩
    refine ⟨hsetting'.trans hsetting, fun xs outer hs ↦ ?_⟩
    obtain ⟨hnew, hs₁⟩ := hfirst _ hs trivial
    obtain ⟨hnodup, hnotmem, hs'⟩ := hrest (p.lexeme :: xs) outer hs₁
    have hp : p.lexeme ∉ parameters.map Token.lexeme := by
      intro hmem
      obtain ⟨p', hp', heq⟩ := List.mem_map.mp hmem
      exact hnotmem p' hp' (heq ▸ List.mem_cons_self)
    refine ⟨List.nodup_cons.mpr ⟨hp, hnodup⟩, List.forall_mem_cons.mpr ⟨hnew, fun p' hp' h ↦
      hnotmem p' hp' (List.mem_cons_of_mem _ h)⟩, matches_reorder hs' fun y ↦ ?_⟩
    simp only [List.mem_append, List.mem_cons, List.map_cons]
    tauto

theorem resolves_function {nesting : Nat} (ih : FillsAll excused nesting) (f : FunDecl)
    (s : State) : Resolves (function (nesting + 1) f) s (FillsFunction excused s f) := by
  obtain ⟨name, parameters, body⟩ := f
  refine Resolves.withScope ((resolves_parameters parameters _).andThen fun _ s₁ ↦
    (ih.statement body s₁).map fun body' s' ↦ ?_)
  intro hbody ⟨hsetting, hparameters⟩ ctx hs ⟨hnames, hshaped, hplain⟩ hexcused
  obtain ⟨hnodup, -, hs₁⟩ := hparameters [] ctx hs.enter.scopes
  rw [List.append_nil] at hs₁
  obtain ⟨hs', hdeclared, hscoped⟩ := hbody _ true ⟨hs₁, hsetting ▸ hs.setting, hs.ordinary⟩
    trivial hshaped hexcused
  rw [Context.after_eq_self hplain] at hs'
  exact ⟨hs'.leave, rfl, .mk hnodup hnames hscoped (hdeclared.trans hplain)⟩

/-! ### Classes -/

theorem resolves_superclass (subclass : Token) (r : Reference) (s : State) :
    Resolves (superclass subclass r) s fun r' s' ↦
      r' = ⟨r.name, distance? r.name.lexeme s.scopes⟩ ∧ r.name.lexeme ≠ subclass.lexeme ∧
        Stays s s' := by
  rw [superclass]
  split
  · exact (Resolves.report (R := fun _ _ ↦ False)).andThen fun _ s₁ ↦
      (resolves_read _ _).mono fun _ _ _ h ↦ h.elim
  · rename_i hne
    exact (resolves_read r s).mono fun _ s' h ↦ ⟨h.1, hne, h.2.1, h.2.2.1⟩

/-- The walk is inside of a class, behind its two scopes. -/
theorem State.At.enterClass {inherits : Bool} (hs : ctx.Matches none s.scopes)
    (hsetting : s.setting = if inherits then .subclass else .plainClass) :
    State.At { s with scopes := Bindings.insert .empty "this" true ::
        (if inherits then Bindings.insert .empty "super" true else .empty) :: s.scopes }
      (.self :: .parent inherits :: ctx) none := by
  refine ⟨.cons (fun x ↦ ?_) (.cons (fun x ↦ ?_) hs), ?_, fun _ h ↦ by cases h⟩
  · by_cases hx : x = "this"
    · rw [hx, Bindings.get?_insert_self]
      rfl
    · rw [Bindings.get?_insert_of_ne hx, Layer.binds, decide_eq_false hx]
      rfl
  · cases inherits with
    | false => rfl
    | true =>
      by_cases hx : x = "super"
      · rw [hx]
        rfl
      · rw [if_pos rfl, Bindings.get?_insert_of_ne hx, Layer.binds, decide_eq_false hx]
        rfl
  · rw [hsetting]
    cases inherits <;> simp [Context.inherits]

/-- The methods of a class, which are inside of its scopes. -/
theorem resolves_methods_within {nesting : Nat} (ih : FillsAll excused nesting) (inherits : Bool)
    (methods : List FunDecl) (s : State) :
    Resolves (withClassScopes inherits (classMethods nesting methods)) s fun methods' s' ↦
      ∀ ctx : Context, ctx.Matches none s.scopes →
        s.setting = (if inherits then .subclass else .plainClass) → (∀ f ∈ methods, f.Shaped) →
        (∀ x, FunDecl.anySelfAssigns x methods' = true → excused x) →
        ctx.Matches none s'.scopes ∧
          ∀ f' ∈ methods', f'.Scoped excused (.self :: .parent inherits :: ctx) := by
  refine Resolves.withClassScopes ((ih.classMethods methods _).mono fun methods' s' h ↦ ?_)
  intro ctx hs hsetting hshaped hexcused
  obtain ⟨hs', hscoped⟩ := h _ (.enterClass hs hsetting) hshaped hexcused
  obtain ⟨_, _, -, hinner, hscopes⟩ := List.forall₂_cons_left_iff.mp hs'.scopes
  obtain ⟨_, _, -, houter, rfl⟩ := List.forall₂_cons_left_iff.mp hinner
  rw [hscopes]
  exact ⟨houter, hscoped⟩

theorem resolves_parent (name : Token) (parent : Option Reference) (s : State) :
    Resolves (optional (superclass name) parent) s fun parent' s' ↦
      Stays s s' ∧ parent'.isSome = parent.isSome ∧ ∀ r' ∈ parent', ∃ r ∈ parent,
        r' = ⟨r.name, distance? r.name.lexeme s.scopes⟩ ∧ r.name.lexeme ≠ name.lexeme := by
  refine Resolves.optional (R := fun parent parent' s' ↦ Stays s s' ∧
    parent'.isSome = parent.isSome ∧ ∀ r' ∈ parent', ∃ r ∈ parent,
      r' = ⟨r.name, distance? r.name.lexeme s.scopes⟩ ∧ r.name.lexeme ≠ name.lexeme)
    ⟨⟨rfl, rfl⟩, rfl, fun _ h ↦ by cases h⟩ (fun r ↦ ?_) parent
  refine (resolves_superclass name r s).mono fun r' s' ⟨hr, hne, hstays⟩ ↦ ⟨hstays, rfl, ?_⟩
  rintro _ ⟨⟩
  exact ⟨r, rfl, hr, hne⟩

theorem resolves_class {nesting : Nat} (ih : FillsAll excused nesting) (name : Token)
    (parent : Option Reference) (methods : List FunDecl) (s : State) :
    Resolves (classDeclaration (nesting + 1) name parent methods) s
      (FillsStatement excused s (.class name parent methods)) := by
  refine Resolves.withSetting ((resolves_declareReady name _).andThen fun _ s₁ ↦
    (resolves_parent name parent s₁).andThen fun parent' s₂ ↦
      (resolves_methods_within ih parent'.isSome methods s₂).map fun methods' s' ↦ ?_)
  intro hmethods ⟨hstays, hsome, hparent⟩ ⟨hsetting, hdeclared⟩ ctx inside hs hopen hshaped
    hexcused
  cases hshaped with
  | «class» hname hnames hshaped =>
    obtain ⟨hadmits, hs₁⟩ := hdeclared ctx hs.scopes hopen
    obtain ⟨hs', hscoped⟩ := hmethods (ctx.declare name.lexeme) (hstays.1 ▸ hs₁)
      (by rw [hstays.2, hsetting, hsome]) hshaped hexcused
    refine ⟨⟨hs', ?_, fun _ h ↦ by cases h⟩, rfl, .class hname hadmits (fun r' hr' ↦ ?_) hscoped⟩
    · rw [show ctx.after (.class name parent methods) = ctx.declare name.lexeme from rfl,
        Context.inherits_declare]
      exact hs.setting
    · obtain ⟨r, hr, rfl, hne⟩ := hparent r' hr'
      refine ⟨hnames r hr, hne, ?_⟩
      rw [distance?_eq hs₁, Context.distance?_declare_of_ne hne]

/-! ### Statements with others inside -/

theorem resolves_block {nesting : Nat} (ih : FillsAll excused nesting) (body : List Stmt)
    (s : State) : Resolves (statement (nesting + 1) (.block body)) s
      (FillsStatement excused s (.block body)) := by
  refine (Resolves.withScope (R := FillsStatement excused s (.block body) ∘ Stmt.block)
    ((ih.statements body _).mono fun body' s' h ↦ ?_)).map fun _ _ h ↦ h
  intro ctx inside hs hopen hshaped hexcused
  cases hshaped with
  | block hshaped =>
    obtain ⟨hs', hrow⟩ := h _ inside hs.enter trivial hshaped hexcused
    obtain ⟨xs, hxs⟩ := Context.exists_foldl_after_names [] ctx body
    rw [hxs] at hs'
    exact ⟨hs'.leave, rfl, .block hrow⟩

theorem resolves_branch {nesting : Nat} (ih : FillsAll excused nesting) (condition : Expr)
    (yes : Stmt) (no : Option Stmt) (s : State) :
    Resolves (statement (nesting + 1) (.branch condition yes no)) s
      (FillsStatement excused s (.branch condition yes no)) := by
  have hcondition : Resolves (expression nesting condition) s (Fills excused s condition) :=
    resolves_expression nesting condition s
  refine hcondition.andThen fun condition' s₁ ↦ (ih.statement yes s₁).andThen
    fun yes' s₂ ↦ (resolves_optional_statement ih.statement no s₂).andThen fun no' s₃ ↦
      Resolves.pure ?_
  intro hno hyes hcondition ctx inside hs hopen hshaped hexcused
  cases hshaped with
  | branch hshaped hshapedYes hplainYes hshapedNo hplainNo =>
    obtain ⟨hs₁, hcondition⟩ := hcondition.scoped hs hshaped
    obtain ⟨hs₂, hyes, hplain⟩ := hyes.plain hs₁ hopen hshapedYes hplainYes
      fun x hx ↦ hexcused x (by cases no' <;> simp [Stmt.selfAssigns, hx])
    obtain ⟨hs₃, hdeclared, hno⟩ := hno ctx inside hs₂ hopen hshapedNo
      fun st' hst' x hx ↦ hexcused x (by
        rw [Option.mem_def.mp hst', Stmt.selfAssigns, hx, Bool.or_true])
    -- Neither branch is a declaration, so the context behind the statement is the one before it.
    refine ⟨?_, rfl, .branch hcondition hyes hplain hno fun st' hst' ↦ ?_⟩
    · cases no with
      | none => exact hs₃
      | some no =>
        rw [Option.elim_some, Context.after_eq_self (hplainNo no rfl)] at hs₃
        exact hs₃
    · obtain rfl : no' = some st' := hst'
      obtain ⟨st, hst, heq⟩ := Option.map_eq_some_iff.mp hdeclared.symm
      exact heq.symm.trans (hplainNo st hst)

/-- A `for` statement has a scope of its own, in which at most its first clause declares a name. -/
theorem resolves_forLoop {nesting : Nat} (ih : FillsAll excused nesting)
    (initializer : Option Stmt) (condition increment : Option Expr) (body : Stmt) (s : State) :
    Resolves (statement (nesting + 1) (.forLoop initializer condition increment body)) s
      (FillsStatement excused s (.forLoop initializer condition increment body)) := by
  have hoptional : ∀ o s, Resolves (optional (expression nesting) o) s
      (FillsOptional excused s o) :=
    resolves_optional nesting
  refine Resolves.withScope (((resolves_optional_statement ih.statement initializer _)).andThen
    fun initializer' s₁ ↦ (hoptional condition s₁).andThen fun condition' s₂ ↦
      (ih.statement body s₂).andThen fun body' s₃ ↦ (hoptional increment s₃).andThen
        fun increment' s₄ ↦ Resolves.pure ?_)
  intro hincrement hbody hcondition hinitializer ctx inside hs hopen hshaped hexcused
  cases hshaped with
  | forLoop hshapedInitializer hshapedCondition hshapedIncrement hshapedBody hplain =>
    have hexcused : (∀ st' ∈ initializer', ∀ x, st'.selfAssigns x true = true → excused x) ∧
        ∀ x, body'.selfAssigns x true = true → excused x := by
      cases initializer' with
      | none => exact ⟨fun _ h ↦ (by cases h), hexcused⟩
      | some st' =>
        simp only [Stmt.selfAssigns, Bool.or_eq_true, or_imp, forall_and] at hexcused
        exact ⟨fun _ h ↦ Option.mem_some_iff.mp h ▸ hexcused.1, hexcused.2⟩
    obtain ⟨hs₁, hdeclared, hinitializer⟩ := hinitializer (.names [] :: ctx) inside hs.enter
      trivial hshapedInitializer hexcused.1
    -- Whatever the first clause declares, the context outside of the scope is what it was.
    obtain ⟨xs, hxs⟩ : ∃ xs, initializer.elim (.names [] :: ctx)
        (Context.after (.names [] :: ctx)) = .names xs :: ctx := by
      cases initializer with
      | none => exact ⟨[], rfl⟩
      | some st => exact Context.exists_after_names [] ctx st
    have hinner : initializer'.elim (.names [] :: ctx) (Context.after (.names [] :: ctx))
        = .names xs :: ctx := by
      rw [← hxs]
      cases initializer <;> cases initializer' <;> simp at hdeclared
      · rfl
      · rw [Option.elim_some, Option.elim_some, Context.after, Context.after, hdeclared]
    rw [hxs] at hs₁
    obtain ⟨hs₂, hcondition⟩ := hcondition.scoped hs₁ hshapedCondition
    obtain ⟨hs₃, hbody, hplain⟩ := hbody.plain hs₂ trivial hshapedBody hplain hexcused.2
    obtain ⟨hs₄, hincrement⟩ := hincrement.scoped hs₃ hshapedIncrement
    exact ⟨hs₄.leave, rfl,
      .forLoop hinitializer hinner.symm hcondition hincrement hbody hplain⟩

/-! ### All statements -/

theorem resolves_statement {nesting : Nat} (ih : FillsAll excused nesting) (st : Stmt) (s : State) :
    Resolves (statement (nesting + 1) st) s (FillsStatement excused s st) := by
  have hexpression : ∀ e s, Resolves (expression nesting e) s (Fills excused s e) :=
    resolves_expression nesting
  have hoptional : ∀ o s, Resolves (optional (expression nesting) o) s
      (FillsOptional excused s o) :=
    resolves_optional nesting
  cases st with
  | expression value =>
    refine (hexpression value s).map fun value' s' h ctx inside hs hopen hshaped hexcused ↦ ?_
    cases hshaped with
    | expression hshaped =>
      obtain ⟨hs', hscoped⟩ := h.scoped hs hshaped
      exact ⟨hs', rfl, .expression hscoped⟩
  | print value =>
    refine (hexpression value s).map fun value' s' h ctx inside hs hopen hshaped hexcused ↦ ?_
    cases hshaped with
    | print hshaped =>
      obtain ⟨hs', hscoped⟩ := h.scoped hs hshaped
      exact ⟨hs', rfl, .print hscoped⟩
  | var name initializer => exact resolves_var nesting name initializer s
  | block body => exact resolves_block ih body s
  | branch condition yes no => exact resolves_branch ih condition yes no s
  | loop condition body =>
    refine (hexpression condition s).andThen fun condition' s₁ ↦ (ih.statement body s₁).andThen
      fun body' s₂ ↦ Resolves.pure ?_
    intro hbody hcondition ctx inside hs hopen hshaped hexcused
    cases hshaped with
    | loop hshaped hshapedBody hplain =>
      obtain ⟨hs₁, hcondition⟩ := hcondition.scoped hs hshaped
      obtain ⟨hs₂, hbody, hplain⟩ := hbody.plain hs₁ hopen hshapedBody hplain hexcused
      exact ⟨hs₂, rfl, .loop hcondition hbody hplain⟩
  | forLoop initializer condition increment body =>
    exact resolves_forLoop ih initializer condition increment body s
  | function f => exact resolves_function_statement ih f s
  | «return» keyword value =>
    refine (hoptional value s).map fun value' s' h ctx inside hs hopen hshaped hexcused ↦ ?_
    cases hshaped with
    | «return» hshaped =>
      obtain ⟨hs', hscoped⟩ := h.scoped hs hshaped
      exact ⟨hs', rfl, .return hscoped⟩
  | «class» name parent methods => exact ih.classDeclaration name parent methods s

theorem FillsAll.of_nesting (excused : String → Prop) (nesting : Nat) :
    FillsAll excused nesting := by
  induction nesting with
  | zero =>
    exact {
      statement := fun _ _ ↦ Resolves.throw
      statements := fun _ _ ↦ Resolves.throw
      classDeclaration := fun _ _ _ _ ↦ Resolves.throw
      classMethods := fun _ _ ↦ Resolves.throw
      function := fun _ _ ↦ Resolves.throw }
  | succ nesting ih =>
    exact {
      statement := resolves_statement ih
      statements := resolves_body ih.statement
      classDeclaration := resolves_class ih
      classMethods := resolves_methods ih.function
      function := resolves_function ih }

end Lox.Scoping
