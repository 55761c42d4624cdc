import Lox.Proofs.Scoping.Mentions
import Lox.Proofs.Scoping.Resolution.Expression

/-!
# The walk notes the mentions of names

The scopes of the walk say of each name whether it is declared and whether it is ready. A context
says the same in other words, and what the walk does with a mention of a name depends on nothing
else. So the walk over a program is a walk over its mentions: it notes what is to be noted about
each of them, in their order, and goes on, whatever it was.

Everything here is an equation between states. A walk that is not cut short leaves the scopes with
the declarations of what it walked over, the class as it was, and one note for each mention.
-/

namespace Lox

open Scoping

/-! ## Scopes and contexts -/

/-- A scope says of the names of a layer that they are ready, apart from one that is on the way. -/
def Layer.Shows (layer : Layer) (awaiting : Option String) (scope : Scope) : Prop :=
  ∀ x, scope.get? x = if layer.binds x then some (decide (awaiting ≠ some x)) else none

theorem Layer.shows_none {layer : Layer} {scope : Scope} :
    layer.Shows none scope ↔ layer.Matches scope := by
  simp [Shows, Matches]

/-- What the scopes of the walk are in a context. A variable that is on the way is in the innermost
one. -/
def Context.Shows : Context → Option String → List Scope → Prop
  | [], awaiting, scopes => awaiting = none ∧ scopes = []
  | layer :: ctx, awaiting, scopes => (∀ x ∈ awaiting, layer.binds x = true) ∧
      ∃ scope outer, scopes = scope :: outer ∧ layer.Shows awaiting scope ∧
        List.Forall₂ Layer.Matches ctx outer

namespace Context

variable {ctx : Context} {awaiting : Option String} {scopes : List Scope} {x : String}

theorem shows_none : ctx.Shows none scopes ↔ List.Forall₂ Layer.Matches ctx scopes := by
  cases ctx with
  | nil => simp [Shows]
  | cons layer ctx =>
    constructor
    · rintro ⟨-, scope, outer, rfl, hlayer, houter⟩
      exact .cons (Layer.shows_none.mp hlayer) houter
    · rintro (_ | ⟨hlayer, houter⟩)
      exact ⟨fun x hx ↦ (by cases hx), _, _, rfl, Layer.shows_none.mpr hlayer, houter⟩

theorem Shows.distance? (h : ctx.Shows awaiting scopes) (x : String) :
    Scoping.distance? x scopes = ctx.distance? x := by
  cases ctx with
  | nil =>
    obtain ⟨-, rfl⟩ := h
    rfl
  | cons layer ctx =>
    obtain ⟨-, scope, outer, rfl, hlayer, houter⟩ := h
    have hcontains : scope.contains x = layer.binds x := by
      rw [Bindings.contains, hlayer x]
      cases layer.binds x <;> rfl
    have hrest := distance?_eq houter x
    rw [Scoping.distance?, Context.distance?] at hrest ⊢
    rw [List.findIdx?_cons, List.findIdx?_cons, hcontains, hrest]

/-- Only the variable that is on the way is not ready. -/
theorem Shows.not_ready_iff (h : ctx.Shows awaiting scopes) :
    (scopes.head?.any fun scope ↦ decide (scope.get? x = some false)) = true ↔
      awaiting = some x := by
  cases ctx with
  | nil =>
    obtain ⟨rfl, rfl⟩ := h
    simp
  | cons layer ctx =>
    obtain ⟨hbinds, scope, outer, rfl, hlayer, -⟩ := h
    simp only [List.head?_cons, Option.any_some, decide_eq_true_eq, hlayer x]
    constructor
    · split
      · simp
      · simp
    · intro hx
      rw [if_pos (hbinds x hx), hx]
      simp

/-- A name is in the innermost scope already unless it is new there. -/
theorem Shows.contains_iff (h : ctx.Shows none scopes) (hopen : ctx.IsOpen) :
    (scopes.head?.any fun scope ↦ scope.contains x) = true ↔ ¬ ctx.Admits x := by
  match ctx, hopen with
  | [], _ =>
    obtain ⟨-, rfl⟩ := h
    simp [Admits]
  | .names xs :: ctx, _ =>
    obtain ⟨-, scope, outer, rfl, hlayer, -⟩ := h
    rw [List.head?_cons, Option.any_some, contains_eq_binds (Layer.shows_none.mp hlayer)]
    simp [Layer.binds, Admits]

theorem Shows.declare (h : ctx.Shows none scopes) (hopen : ctx.IsOpen) :
    (ctx.declare x).Shows (ctx.awaiting x) (bound x false scopes) := by
  match ctx, hopen with
  | [], _ =>
    obtain ⟨-, rfl⟩ := h
    exact ⟨rfl, rfl⟩
  | .names xs :: ctx, _ =>
    obtain ⟨-, scope, outer, rfl, hlayer, houter⟩ := h
    refine ⟨?_, scope.insert x false, outer, rfl, fun y ↦ ?_, houter⟩
    · rintro _ ⟨⟩
      simp [Layer.binds]
    · by_cases hy : y = x
      · subst hy
        simp [Layer.binds, awaiting, Bindings.get?_insert_self]
      · rw [Bindings.get?_insert_of_ne hy, hlayer y]
        simp [Layer.binds, awaiting, hy, Ne.symm hy]

theorem Shows.ready (h : (ctx.declare x).Shows (ctx.awaiting x) scopes) (hopen : ctx.IsOpen) :
    (ctx.declare x).Shows none (bound x true scopes) := by
  match ctx, hopen with
  | [], _ =>
    obtain ⟨-, rfl⟩ := h
    exact ⟨rfl, rfl⟩
  | .names xs :: ctx, _ =>
    obtain ⟨-, scope, outer, rfl, hlayer, houter⟩ := h
    refine ⟨fun y hy ↦ (by cases hy), scope.insert x true, outer, rfl, fun y ↦ ?_, houter⟩
    by_cases hy : y = x
    · subst hy
      simp [Layer.binds, Bindings.get?_insert_self]
    · rw [Bindings.get?_insert_of_ne hy, hlayer y]
      simp [Layer.binds, awaiting, hy, Ne.symm hy]

theorem isOpen_names (xs : List String) (outer : Context) : IsOpen (.names xs :: outer) := trivial

theorem isOpen_declare (h : ctx.IsOpen) (x : String) : (ctx.declare x).IsOpen := by
  match ctx, h with
  | [], _ => trivial
  | .names xs :: outer, _ => trivial

end Context

namespace Scoping

/-! ## Notes -/

/-- The scopes behind some declarations. -/
def settled (names : List String) (scopes : List Scope) : List Scope :=
  names.foldl (fun scopes x ↦ bound x true (bound x false scopes)) scopes

namespace State

/-- A state with a note for each of some mentions. -/
def noting (s : State) (mentions : List Mention) : State :=
  { s with
    errors := (mentions.filterMap Mention.complaint?).reverse ++ s.errors
    findings := (mentions.filterMap Mention.finding?).reverse ++ s.findings }

/-- A state behind some declarations. -/
def behind (s : State) (names : List String) : State := { s with scopes := settled names s.scopes }

variable (s : State) (mentions more : List Mention) (names others : List String)

@[simp] theorem noting_noting : (s.noting mentions).noting more = s.noting (mentions ++ more) := by
  simp [noting]

@[simp] theorem scopes_noting : (s.noting mentions).scopes = s.scopes := rfl

@[simp] theorem behind_behind : (s.behind names).behind others = s.behind (names ++ others) := by
  simp [behind, settled]

@[simp] theorem behind_noting :
    (s.noting mentions).behind names = (s.behind names).noting mentions := rfl

/-- The note about one mention. -/
theorem noting_singleton (mention : Mention) : s.noting [mention]
    = { s with
        errors := mention.complaint?.toList ++ s.errors
        findings := mention.finding?.toList ++ s.findings } := by
  rw [noting, List.filterMap_cons, List.filterMap_cons]
  cases mention.complaint? <;> cases mention.finding? <;> rfl

/-- The walk is at a place, where some variable may be on the way. -/
structure Faces (s : State) (ctx : Context) (awaiting : Option String) : Prop where
  scopes : ctx.Shows awaiting s.scopes
  setting : s.setting = .subclass ↔ ctx.inherits = true

variable {s} {ctx : Context} {awaiting : Option String}

theorem Faces.noting (h : s.Faces ctx awaiting) : (s.noting mentions).Faces ctx awaiting :=
  ⟨h.scopes, h.setting⟩

end State

variable {α β : Type} {s s' : State} {ctx : Context} {awaiting : Option String} {p : Resolve α}
  {nesting : Nat}

theorem bind_eq (name : String) (ready : Bool) (s : State) :
    Scoping.bind name ready s = .ok ⟨⟩ { s with scopes := bound name ready s.scopes } := by
  obtain ⟨scopes, setting, errors, findings⟩ := s
  cases scopes <;> rfl

theorem get_bind (q : State → Resolve α) (s : State) : (MonadState.get >>= q) s = q s s := rfl

theorem report_eq (name : Token) (error : ScopeError) (s : State) :
    report name error s = .ok ⟨⟩ { s with errors := (name, error) :: s.errors } := rfl

/-- The distance of a use of a name, and what is found. -/
theorem locate_eq (mention : Mention) {use : Use} {r : Reference}
    (h : ctx.Shows awaiting s.scopes) (huse : mention.use? = some (use, r, ctx)) :
    locate use r s
      = .ok (r.located ctx) { s with findings := mention.finding?.toList ++ s.findings } := by
  rw [locate, get_bind, h.distance?, Mention.finding?_of_use huse, Reference.located]
  cases ctx.distance? r.name.lexeme <;> rfl

theorem read_eq (h : ctx.Shows awaiting s.scopes) (r : Reference) :
    read r s = .ok (r.located ctx) (s.noting [.read r ctx awaiting]) := by
  rw [read, get_bind, State.noting_singleton, Mention.complaint?]
  by_cases hawaiting : awaiting = some r.name.lexeme
  · rw [if_pos (h.not_ready_iff.mpr hawaiting), if_pos hawaiting, bind_of_ok (report_eq _ _ s)]
    exact locate_eq (.read r ctx awaiting) h rfl
  · rw [if_neg (mt h.not_ready_iff.mp hawaiting), if_neg hawaiting]
    exact locate_eq (.read r ctx awaiting) h rfl

/-- A use of a name that is not a variable's, or that a variable is assigned to. -/
theorem locate_quiet (mention : Mention) {use : Use} {r : Reference}
    (h : ctx.Shows awaiting s.scopes) (huse : mention.use? = some (use, r, ctx))
    (hcomplaint : mention.complaint? = none) :
    locate use r s = .ok (r.located ctx) (s.noting [mention]) := by
  rw [locate_eq mention h huse, State.noting_singleton, hcomplaint]
  rfl

theorem declare_eq (h : ctx.Shows none s.scopes) (hopen : ctx.IsOpen) (name : Token) :
    declare name s = .ok ⟨⟩
      ({ s with scopes := bound name.lexeme false s.scopes }.noting [.declared name ctx]) := by
  rw [declare, get_bind, State.noting_singleton, Mention.complaint?]
  by_cases hadmits : ctx.Admits name.lexeme
  · rw [if_neg (mt (h.contains_iff hopen).mp (not_not_intro hadmits)), if_pos hadmits]
    exact bind_eq _ _ s
  · rw [if_pos ((h.contains_iff hopen).mpr hadmits), if_neg hadmits, bind_of_ok (report_eq _ _ s)]
    exact bind_eq _ _ _

theorem declareReady_eq (h : ctx.Shows none s.scopes) (hopen : ctx.IsOpen) (name : Token) :
    declareReady name s = .ok ⟨⟩ ((s.behind [name.lexeme]).noting [.declared name ctx]) := by
  rw [declareReady, bind_of_ok (declare_eq h hopen name)]
  exact bind_eq _ _ _

/-! ## Expressions -/

theorem mapM_expression_eq {es : List Expr} (hs : s.Faces ctx awaiting)
    (h : ∀ e ∈ es, ∀ s : State, s.Faces ctx awaiting → expression nesting e s
      = .ok (e.located ctx) (s.noting (e.mentions ctx awaiting))) :
    es.mapM (expression nesting) s
      = .ok (Expr.locatedRow ctx es) (s.noting (Expr.mentionsRow ctx awaiting es)) := by
  induction es generalizing s with
  | nil => rfl
  | cons e es ih =>
    rw [List.forall_mem_cons] at h
    rw [List.mapM_cons, bind_of_ok (h.1 s hs), bind_of_ok (ih (hs.noting _) h.2)]
    rw [State.noting_noting]
    rfl

theorem expression_eq : ∀ {nesting : Nat} {e : Expr}, sizeOf e ≤ nesting →
    ∀ {s : State}, s.Faces ctx awaiting → expression nesting e s
      = .ok (e.located ctx) (s.noting (e.mentions ctx awaiting))
  | 0, e, hle, _, _ => by cases e <;> simp at hle
  | nesting + 1, e, hle, s, hs => by
    have ih := @expression_eq nesting
    cases e with
    | literal value => rfl
    | group inner | unary operator operand | property object name =>
      simp only [Expr.group.sizeOf_spec, Expr.unary.sizeOf_spec, Expr.property.sizeOf_spec] at hle
      exact map_of_ok (ih (by omega) hs)
    | binary left operator right | logical left operator right =>
      simp only [Expr.binary.sizeOf_spec, Expr.logical.sizeOf_spec] at hle
      rw [expression, bind_of_ok (ih (by omega) hs), bind_of_ok (ih (by omega) (hs.noting _)),
        State.noting_noting]
      rfl
    | var target => exact map_of_ok (read_eq hs.scopes target)
    | assign target value =>
      simp only [Expr.assign.sizeOf_spec] at hle
      rw [expression, bind_of_ok (ih (by omega) hs), bind_of_ok (locate_quiet
        (.assigned target ctx) (hs.noting _).scopes rfl rfl), State.noting_noting]
      rfl
    | setProperty object name value =>
      simp only [Expr.setProperty.sizeOf_spec] at hle
      rw [expression, bind_of_ok (ih (by omega) hs), bind_of_ok (ih (by omega) (hs.noting _)),
        State.noting_noting]
      rfl
    | call callee paren arguments =>
      simp only [Expr.call.sizeOf_spec] at hle
      have harguments : ∀ e ∈ arguments, ∀ s : State, s.Faces ctx awaiting →
          expression nesting e s = .ok (e.located ctx) (s.noting (e.mentions ctx awaiting)) :=
        fun e he s hs ↦ ih (by have := List.sizeOf_lt_of_mem he; omega) hs
      rw [expression, bind_of_ok (ih (by omega) hs),
        bind_of_ok (mapM_expression_eq (hs.noting _) harguments), State.noting_noting]
      rfl
    | self keyword =>
      exact map_of_ok (locate_quiet (.self keyword ctx) hs.scopes rfl rfl)
    | inherited keyword method =>
      rw [expression, get_bind, Expr.located]
      by_cases hinherits : ctx.inherits = true
      · have hlocate := locate_quiet (.inherited keyword ctx) hs.scopes
          (if_pos hinherits) rfl
        rw [if_pos (hs.setting.mpr hinherits), if_pos hinherits, bind_of_ok hlocate]
        rfl
      · rw [if_neg (mt hs.setting.mp hinherits), if_neg hinherits, Expr.mentions,
          State.noting_singleton, Mention.finding?, Mention.use?, if_neg hinherits]
        rfl

/-- The walk over an expression that may be absent. -/
theorem optional_expression_eq {e : Option Expr} (hle : sizeOf e ≤ nesting)
    (hs : s.Faces ctx awaiting) : optional (expression nesting) e s
      = .ok (e.map (Expr.located ctx)) (s.noting (Expr.mentionsOption ctx awaiting e)) := by
  cases e with
  | none => rfl
  | some e =>
    rw [Option.some.sizeOf_spec] at hle
    exact map_of_ok (expression_eq (by omega) hs)

/-! ## Scopes -/

theorem withScope_eq {a : α} (h : p { s with scopes := .empty :: s.scopes } = .ok a s') :
    withScope p s = .ok a { s' with scopes := s'.scopes.tail } := by
  rw [withScope, h]

theorem tail_settled (names : List String) (scopes : List Scope) :
    (settled names scopes).tail = scopes.tail := by
  induction names generalizing scopes with
  | nil => rfl
  | cons x names ih =>
    rw [settled, List.foldl_cons, ← settled, ih]
    cases scopes <;> rfl

/-- What is declared in a new scope is forgotten at its end. -/
theorem withScope_behind {a : α} (names : List String) {mentions : List Mention}
    (h : p { s with scopes := .empty :: s.scopes }
      = .ok a ((State.behind { s with scopes := .empty :: s.scopes } names).noting mentions)) :
    withScope p s = .ok a (s.noting mentions) := by
  rw [withScope_eq h, State.scopes_noting, State.behind, tail_settled]
  rfl

namespace State.Faces

theorem enter (hs : s.Faces ctx none) :
    State.Faces { s with scopes := .empty :: s.scopes } (.names [] :: ctx) none := by
  refine ⟨Context.shows_none.mpr (.cons (fun x ↦ ?_) (Context.shows_none.mp hs.scopes)), hs.setting⟩
  simp [Layer.binds]

theorem behind_cons (hs : s.Faces ctx none) (hopen : ctx.IsOpen) (x : String) :
    (s.behind [x]).Faces (ctx.declare x) none :=
  ⟨(hs.scopes.declare hopen).ready hopen, (Context.inherits_declare ctx x).symm ▸ hs.setting⟩

theorem behind (hs : s.Faces ctx none) (hopen : ctx.IsOpen) (names : List String) :
    (s.behind names).Faces (ctx.declareAll names) none ∧ (ctx.declareAll names).IsOpen := by
  induction names generalizing s ctx with
  | nil => exact ⟨hs, hopen⟩
  | cons x names ih =>
    exact ih (hs.behind_cons hopen x) (Context.isOpen_declare hopen x)

end State.Faces

/-! ## Classes -/

/-- The two scopes of a class. -/
def classScopes (inherits : Bool) (scopes : List Scope) : List Scope :=
  Bindings.empty.insert "this" true
    :: (if inherits then Bindings.empty.insert "super" true else .empty) :: scopes

theorem shows_classScopes {scopes : List Scope} (h : ctx.Shows none scopes) (inherits : Bool) :
    (ctx.insideClass inherits).Shows none (classScopes inherits scopes) := by
  refine Context.shows_none.mpr (.cons (fun x ↦ ?_) (.cons (fun x ↦ ?_) (Context.shows_none.mp h)))
  · by_cases hx : x = "this"
    · simp [Layer.binds, hx, Bindings.get?_insert_self]
    · simp [Layer.binds, hx, Bindings.get?_insert_of_ne hx]
  · cases inherits with
    | false => simp [Layer.binds]
    | true =>
      by_cases hx : x = "super"
      · simp [Layer.binds, hx, Bindings.get?_insert_self]
      · simp [Layer.binds, hx, Bindings.get?_insert_of_ne hx]

theorem withClassScopes_eq {inherits : Bool} {a : α} {mentions : List Mention}
    (h : p { s with scopes := classScopes inherits s.scopes }
      = .ok a (State.noting { s with scopes := classScopes inherits s.scopes } mentions)) :
    withClassScopes inherits p s = .ok a (s.noting mentions) := by
  -- The scope of `this`, inside of whatever the other one is.
  have hself : ∀ parent,
      p { s with scopes := Bindings.empty.insert "this" true :: parent :: s.scopes }
        = .ok a (State.noting { s with
          scopes := Bindings.empty.insert "this" true :: parent :: s.scopes } mentions) →
      withScope (Scoping.bind "this" true >>= fun _ ↦ p) { s with scopes := parent :: s.scopes }
        = .ok a (State.noting { s with scopes := parent :: s.scopes } mentions) := by
    intro parent h
    rw [withScope_eq ((bind_of_ok (bind_eq "this" true _)).trans h)]
    rfl
  cases inherits with
  | false => exact withScope_eq (s := s) (hself .empty h)
  | true =>
    have hsuper := bind_of_ok (f := fun _ ↦ withScope (Scoping.bind "this" true >>= fun _ ↦ p))
      (bind_eq "super" true { s with scopes := .empty :: s.scopes })
    exact withScope_eq (s := s) (hsuper.trans (hself _ h))

theorem withSetting_eq {setting : Setting} {a : α} {names : List String} {mentions : List Mention}
    (h : p { s with setting }
      = .ok a ((State.behind { s with setting } names).noting mentions)) :
    withSetting setting p s = .ok a ((s.behind names).noting mentions) := by
  rw [withSetting, h]
  rfl

theorem superclass_eq (h : ctx.Shows none s.scopes) (subclass : Token) (r : Reference) :
    superclass subclass r s
      = .ok (r.located ctx) (s.noting [.extended subclass r.name, .read r ctx none]) := by
  have hnoting : s.noting [.extended subclass r.name, .read r ctx none]
      = (s.noting [.extended subclass r.name]).noting [.read r ctx none] := by
    rw [State.noting_noting, List.singleton_append]
  rw [superclass, hnoting, State.noting_singleton s, Mention.complaint?]
  by_cases hsame : r.name.lexeme = subclass.lexeme
  · rw [if_pos hsame, if_pos hsame, bind_of_ok (report_eq _ _ s)]
    exact read_eq (by exact h) r
  · rw [if_neg hsame, if_neg hsame]
    exact read_eq (by exact h) r

/-! ## Statements -/

/-- What the walk makes of the parts of a program, if it may nest deeply enough. -/
structure Walks (nesting : Nat) : Prop where
  statement : ∀ {st : Stmt} {ctx : Context} {s : State}, sizeOf st ≤ nesting → ctx.IsOpen →
    s.Faces ctx none → statement nesting st s
      = .ok (st.located ctx) ((s.behind st.declares).noting (st.mentions ctx))
  statements : ∀ {body : List Stmt} {ctx : Context} {s : State}, sizeOf body ≤ nesting →
    ctx.IsOpen → s.Faces ctx none → statements nesting body s
      = .ok (Stmt.locatedRow ctx body)
        ((s.behind (body.flatMap Stmt.declares)).noting (Stmt.mentionsRow ctx body))
  classDeclaration : ∀ {name : Token} {parent : Option Reference} {methods : List FunDecl}
    {ctx : Context} {s : State}, sizeOf methods + 1 ≤ nesting →
    ctx.IsOpen → s.Faces ctx none → classDeclaration nesting name parent methods s
      = .ok ((Stmt.class name parent methods).located ctx)
        ((s.behind [name.lexeme]).noting ((Stmt.class name parent methods).mentions ctx))
  classMethods : ∀ {methods : List FunDecl} {ctx : Context} {s : State},
    sizeOf methods ≤ nesting → s.Faces ctx none → classMethods nesting methods s
      = .ok (FunDecl.locatedRow ctx methods) (s.noting (FunDecl.mentionsRow ctx methods))
  function : ∀ {f : FunDecl} {ctx : Context} {s : State}, sizeOf f ≤ nesting →
    s.Faces ctx none → function nesting f s = .ok (f.located ctx) (s.noting (f.mentions ctx))

/-- The statements of a row, each of them behind those before it. -/
theorem mapM_statement_eq {body : List Stmt} (hopen : ctx.IsOpen) (hs : s.Faces ctx none)
    (h : ∀ st ∈ body, ∀ {ctx : Context} {s : State}, ctx.IsOpen → s.Faces ctx none →
      statement nesting st s
        = .ok (st.located ctx) ((s.behind st.declares).noting (st.mentions ctx))) :
    body.mapM (statement nesting) s = .ok (Stmt.locatedRow ctx body)
      ((s.behind (body.flatMap Stmt.declares)).noting (Stmt.mentionsRow ctx body)) := by
  induction body generalizing s ctx with
  | nil => rfl
  | cons st rest ih =>
    rw [List.forall_mem_cons] at h
    obtain ⟨hs', hopen'⟩ := hs.behind hopen st.declares
    rw [List.mapM_cons, bind_of_ok (h.1 hopen hs),
      bind_of_ok (ih hopen' (hs'.noting _) h.2), State.behind_noting, State.behind_behind,
      State.noting_noting]
    rfl

theorem mapM_function_eq {methods : List FunDecl} (hs : s.Faces ctx none)
    (h : ∀ f ∈ methods, ∀ s : State, s.Faces ctx none →
      function nesting f s = .ok (f.located ctx) (s.noting (f.mentions ctx))) :
    methods.mapM (function nesting) s
      = .ok (FunDecl.locatedRow ctx methods) (s.noting (FunDecl.mentionsRow ctx methods)) := by
  induction methods generalizing s with
  | nil => rfl
  | cons f rest ih =>
    rw [List.forall_mem_cons] at h
    rw [List.mapM_cons, bind_of_ok (h.1 s hs), bind_of_ok (ih (hs.noting _) h.2),
      State.noting_noting]
    rfl

theorem forM_declareReady_eq {parameters : List Token} (hopen : ctx.IsOpen)
    (hs : s.Faces ctx none) : parameters.forM declareReady s
      = .ok ⟨⟩ ((s.behind (parameters.map Token.lexeme)).noting
        (parameterMentions ctx parameters)) := by
  induction parameters generalizing s ctx with
  | nil => rfl
  | cons p rest ih =>
    have hrest := ih (Context.isOpen_declare hopen p.lexeme)
      ((hs.behind_cons hopen p.lexeme).noting [.declared p ctx])
    refine (bind_of_ok (declareReady_eq hs.scopes hopen p)).trans ?_
    rw [hrest, State.behind_noting, State.behind_behind, State.noting_noting]
    rfl

namespace Walks

theorem var_eq {name : Token} {initializer : Option Expr} (hle : sizeOf initializer ≤ nesting)
    (hopen : ctx.IsOpen) (hs : s.Faces ctx none) :
    Scoping.statement (nesting + 1) (.var name initializer) s
      = .ok ((Stmt.var name initializer).located ctx)
        ((s.behind [name.lexeme]).noting ((Stmt.var name initializer).mentions ctx)) := by
  have hawaiting : State.Faces { s with scopes := bound name.lexeme false s.scopes }
      (ctx.declare name.lexeme) (ctx.awaiting name.lexeme) :=
    ⟨hs.scopes.declare hopen, (Context.inherits_declare ctx _).symm ▸ hs.setting⟩
  rw [Scoping.statement, bind_of_ok (declare_eq hs.scopes hopen name),
    bind_of_ok (optional_expression_eq hle (hawaiting.noting _)), bind_of_ok (bind_eq _ _ _),
    State.noting_noting]
  rfl

theorem optional_statement_eq (ih : Walks nesting) {st : Option Stmt} (hle : sizeOf st ≤ nesting)
    (hopen : ctx.IsOpen) (hs : s.Faces ctx none) :
    optional (Scoping.statement nesting) st s = .ok (Stmt.locatedOption ctx st)
      ((s.behind (Stmt.declaresOption st)).noting (Stmt.mentionsOption ctx st)) := by
  cases st with
  | none => rfl
  | some st =>
    rw [Option.some.sizeOf_spec] at hle
    exact map_of_ok (ih.statement (by omega) hopen hs)

theorem branch_eq (ih : Walks nesting) {condition : Expr} {yes : Stmt} {no : Option Stmt}
    (hcondition : sizeOf condition ≤ nesting) (hyes : sizeOf yes ≤ nesting)
    (hno : sizeOf no ≤ nesting) (hopen : ctx.IsOpen) (hs : s.Faces ctx none) :
    Scoping.statement (nesting + 1) (.branch condition yes no) s
      = .ok ((Stmt.branch condition yes no).located ctx)
        ((s.behind (Stmt.branch condition yes no).declares).noting
          ((Stmt.branch condition yes no).mentions ctx)) := by
  obtain ⟨hs', hopen'⟩ := hs.behind hopen yes.declares
  rw [Scoping.statement, bind_of_ok (expression_eq hcondition hs),
    bind_of_ok (ih.statement hyes hopen (hs.noting _)), State.behind_noting, State.noting_noting,
    bind_of_ok (ih.optional_statement_eq hno hopen' (hs'.noting _)), State.behind_noting,
    State.behind_behind, State.noting_noting]
  rfl

theorem forLoop_eq (ih : Walks nesting) {initializer : Option Stmt}
    {condition increment : Option Expr} {body : Stmt} (hinitializer : sizeOf initializer ≤ nesting)
    (hcondition : sizeOf condition ≤ nesting) (hincrement : sizeOf increment ≤ nesting)
    (hbody : sizeOf body ≤ nesting) (hs : s.Faces ctx none) :
    Scoping.statement (nesting + 1) (.forLoop initializer condition increment body) s
      = .ok ((Stmt.forLoop initializer condition increment body).located ctx)
        (s.noting ((Stmt.forLoop initializer condition increment body).mentions ctx)) := by
  obtain ⟨hs₁, hopen₁⟩ := hs.enter.behind (Context.isOpen_names [] ctx)
    (Stmt.declaresOption initializer)
  obtain ⟨hs₂, hopen₂⟩ := hs₁.behind hopen₁ body.declares
  refine withScope_behind (Stmt.declaresOption initializer ++ body.declares) ?_
  rw [bind_of_ok (ih.optional_statement_eq hinitializer (Context.isOpen_names [] ctx) hs.enter),
    bind_of_ok (optional_expression_eq hcondition (hs₁.noting _)), State.noting_noting,
    bind_of_ok (ih.statement hbody hopen₁ (hs₁.noting _)), State.behind_noting, State.noting_noting,
    bind_of_ok (optional_expression_eq hincrement (hs₂.noting _)), State.noting_noting,
    State.behind_behind]
  rfl

theorem function_eq (ih : Walks nesting) {name : Token} {parameters : List Token} {body : Stmt}
    (hbody : sizeOf body ≤ nesting) (hs : s.Faces ctx none) :
    Scoping.function (nesting + 1) (.mk name parameters body) s
      = .ok ((FunDecl.mk name parameters body).located ctx)
        (s.noting ((FunDecl.mk name parameters body).mentions ctx)) := by
  obtain ⟨hs₁, hopen₁⟩ := hs.enter.behind (Context.isOpen_names [] ctx)
    (parameters.map Token.lexeme)
  refine withScope_behind (parameters.map Token.lexeme ++ body.declares) ?_
  rw [bind_of_ok (forM_declareReady_eq (Context.isOpen_names [] ctx) hs.enter),
    map_of_ok (ih.statement hbody hopen₁ (hs₁.noting _)), State.behind_noting,
    State.behind_behind, State.noting_noting]
  rfl

/-- The methods of a class, which is the innermost one inside of it. -/
theorem methods_eq (ih : Walks nesting) (inherits : Bool) {methods : List FunDecl}
    (hmethods : sizeOf methods ≤ nesting) (hs : ctx.Shows none s.scopes)
    (hsetting : s.setting = if inherits then .subclass else .plainClass) :
    withClassScopes inherits (Scoping.classMethods nesting methods) s
      = .ok (FunDecl.locatedRow (ctx.insideClass inherits) methods)
        (s.noting (FunDecl.mentionsRow (ctx.insideClass inherits) methods)) := by
  refine withClassScopes_eq (ih.classMethods hmethods ⟨shows_classScopes hs inherits, ?_⟩)
  rw [hsetting]
  cases inherits <;> simp [Context.insideClass, Context.inherits]

theorem classDeclaration_eq (ih : Walks nesting) {name : Token} {parent : Option Reference}
    {methods : List FunDecl} (hmethods : sizeOf methods ≤ nesting) (hopen : ctx.IsOpen)
    (hs : s.Faces ctx none) :
    Scoping.classDeclaration (nesting + 1) name parent methods s
      = .ok ((Stmt.class name parent methods).located ctx)
        ((s.behind [name.lexeme]).noting ((Stmt.class name parent methods).mentions ctx)) := by
  have hshows : (ctx.declare name.lexeme).Shows none (settled [name.lexeme] s.scopes) :=
    (hs.scopes.declare hopen).ready hopen
  rw [Scoping.classDeclaration]
  refine withSetting_eq ((bind_of_ok (declareReady_eq (by exact hs.scopes) hopen name)).trans ?_)
  cases parent with
  | none =>
    refine (map_of_ok (ih.methods_eq false hmethods (by exact hshows) rfl)).trans ?_
    rw [State.noting_noting]
    rfl
  | some r =>
    refine (bind_of_ok (map_of_ok (superclass_eq (by exact hshows) name r))).trans ?_
    refine (map_of_ok (ih.methods_eq true hmethods (by exact hshows) rfl)).trans ?_
    rw [State.noting_noting, State.noting_noting]
    rfl

theorem statement_eq (ih : Walks nesting) {st : Stmt} (hle : sizeOf st ≤ nesting + 1)
    (hopen : ctx.IsOpen) (hs : s.Faces ctx none) :
    Scoping.statement (nesting + 1) st s
      = .ok (st.located ctx) ((s.behind st.declares).noting (st.mentions ctx)) := by
  cases st with
  | expression value | print value =>
    simp only [Stmt.expression.sizeOf_spec, Stmt.print.sizeOf_spec] at hle
    exact map_of_ok (expression_eq (by omega) hs)
  | var name initializer =>
    rw [Stmt.var.sizeOf_spec] at hle
    exact var_eq (by omega) hopen hs
  | block body =>
    rw [Stmt.block.sizeOf_spec] at hle
    exact map_of_ok (withScope_behind _
      (ih.statements (by omega) (Context.isOpen_names [] ctx) hs.enter))
  | branch condition yes no =>
    rw [Stmt.branch.sizeOf_spec] at hle
    exact ih.branch_eq (by omega) (by omega) (by omega) hopen hs
  | loop condition body =>
    rw [Stmt.loop.sizeOf_spec] at hle
    rw [Scoping.statement, bind_of_ok (expression_eq (by omega) hs),
      bind_of_ok (ih.statement (by omega) hopen (hs.noting _)), State.behind_noting,
      State.noting_noting]
    rfl
  | forLoop initializer condition increment body =>
    rw [Stmt.forLoop.sizeOf_spec] at hle
    exact ih.forLoop_eq (by omega) (by omega) (by omega) (by omega) hs
  | function f =>
    rw [Stmt.function.sizeOf_spec] at hle
    have hfunction := ih.function (f := f) (by omega) ((hs.behind_cons hopen f.name.lexeme).noting
      [.declared f.name ctx])
    rw [Scoping.statement, bind_of_ok (declareReady_eq hs.scopes hopen f.name),
      map_of_ok hfunction, State.noting_noting]
    rfl
  | «return» keyword value =>
    rw [Stmt.return.sizeOf_spec] at hle
    exact map_of_ok (optional_expression_eq (by omega) hs)
  | «class» name parent methods =>
    have hparent : 1 ≤ sizeOf parent := by cases parent <;> simp
    rw [Stmt.class.sizeOf_spec] at hle
    exact ih.classDeclaration (by omega) hopen hs

theorem of_nesting : ∀ nesting, Walks nesting
  | 0 =>
    { statement := fun {st} _ _ hle ↦ by cases st <;> simp at hle
      statements := fun {body} _ _ hle ↦ by cases body <;> simp at hle
      classDeclaration := fun hle ↦ by omega
      classMethods := fun {methods} _ _ hle ↦ by cases methods <;> simp at hle
      function := fun {f} _ _ hle ↦ by cases f; simp at hle }
  | nesting + 1 =>
    have ih := of_nesting nesting
    { statement := ih.statement_eq
      statements := fun hle hopen hs ↦ mapM_statement_eq hopen hs fun st hst ↦
        ih.statement (by have := List.sizeOf_lt_of_mem hst; omega)
      classDeclaration := fun hle hopen hs ↦ ih.classDeclaration_eq (by omega) hopen hs
      classMethods := fun hle hs ↦ mapM_function_eq hs fun f hf _ ↦
        ih.function (by have := List.sizeOf_lt_of_mem hf; omega)
      function := fun {f} _ _ hle hs ↦ by
        obtain ⟨name, parameters, body⟩ := f
        rw [FunDecl.mk.sizeOf_spec] at hle
        exact ih.function_eq (by omega) hs }

end Walks

/-- Outside of all scopes no variable is on the way. -/
theorem State.Faces.start : State.Faces ⟨[], .noClass, [], []⟩ [] none :=
  ⟨⟨rfl, rfl⟩, by simp [Context.inherits]⟩

/-- The walk over a whole program. -/
theorem mapM_program_eq {program : List Stmt} (hle : sizeOf program ≤ nesting) :
    program.mapM (statement nesting) ⟨[], .noClass, [], []⟩
      = .ok (Stmt.locatedRow [] program)
        (State.noting ⟨[], .noClass, [], []⟩ (Stmt.mentionsRow [] program)) := by
  have hstatement : ∀ st ∈ program, sizeOf st ≤ nesting := fun st hst ↦
    Nat.le_trans (Nat.le_of_lt (List.sizeOf_lt_of_mem hst)) hle
  have hopen : Context.IsOpen [] := trivial
  -- Outside of all scopes nothing is declared.
  have hsettled : ∀ names, settled names [] = [] := fun names ↦ by
    induction names with
    | nil => rfl
    | cons x names ih => exact ih
  rw [mapM_statement_eq hopen .start fun st hst ↦
    (Walks.of_nesting nesting).statement (hstatement st hst), State.behind, hsettled]

end Scoping

/-- What the resolver makes of a program and what it notes about it. -/
theorem resolveProgram_eq {nesting : Nat} {program : List Stmt} (hle : sizeOf program ≤ nesting) :
    resolveProgram nesting program = ⟨some (Stmt.locatedRow [] program),
      (Stmt.mentionsRow [] program).filterMap Mention.complaint?,
      (Stmt.mentionsRow [] program).filterMap Mention.finding?⟩ := by
  rw [resolveProgram, Scoping.run, mapM_program_eq hle]
  simp [State.noting]

end Lox
