import Lox.Proofs.Environments.Discipline
import Lox.Proofs.Methods.Values
import Lox.Proofs.Tasks.Listing
import Mathlib.Data.List.Induction

/-!
# Calls and constructions

The number of arguments is checked in one place and the parameters are bound in another, and a class
looks for its initializer both times. In between any code may run, since the arguments are evaluated
before the check. Nevertheless a function is only ever entered with one argument for each parameter,
and a class is only ever called with what its initializer takes: the soundness of all moments of a
session says so of every call that is begun, wherever the callee comes from.

What a call does then is read off from the list of the tasks that it asks for.
-/

namespace Lox

variable {answers : Answers} {host : Host} {M : Machine}

/-! ## Entering a function -/

/-- Parameters are bound, each of them to the argument in its place, and nothing else is. -/
structure BindsParameters (parameters : List Token) (vs : List Value) (b : Bindings Value) :
    Prop where
  names : b.names = parameters.map Token.lexeme
  values : List.Forall₂ (fun p v ↦ b.get? p.lexeme = some v) parameters vs

theorem Bindings.ofList_concat {α : Type} (entries : List (String × α)) (name : String) (a : α) :
    ofList (entries ++ [(name, a)]) = (ofList entries).insert name a := by
  rw [ofList, List.foldl_append]
  rfl

theorem bindsParameters_ofList {parameters : List Token} {vs : List Value}
    (hnodup : (parameters.map Token.lexeme).Nodup) (hlength : vs.length = parameters.length) :
    BindsParameters parameters vs (.ofList ((parameters.map Token.lexeme).zip vs)) := by
  -- Parameters are bound from the left, so the induction takes them away from the right.
  induction parameters using List.reverseRecOn generalizing vs with
  | nil =>
    obtain rfl := List.length_eq_zero_iff.mp hlength
    exact ⟨rfl, .nil⟩
  | append_singleton parameters p ih =>
    rcases List.eq_nil_or_concat' vs with rfl | ⟨vs, v, rfl⟩
    · rw [List.length_append] at hlength
      cases hlength
    rw [List.map_append, List.map_singleton] at hnodup ⊢
    obtain ⟨hnodup, -, hdisjoint⟩ := List.nodup_append.mp hnodup
    rw [List.length_append, List.length_append, List.length_singleton, List.length_singleton,
      Nat.add_right_cancel_iff] at hlength
    obtain ⟨hnames, hvalues⟩ := ih hnodup hlength
    rw [List.zip_append (by rw [List.length_map, hlength]), List.zip_cons_cons, List.zip_nil_right,
      Bindings.ofList_concat]
    have hnew : p.lexeme ∉ parameters.map Token.lexeme := fun hmem ↦
      hdisjoint _ hmem _ (List.mem_singleton_self _) rfl
    refine ⟨?_, List.rel_append ?_ (.cons (Bindings.get?_insert_self ..) .nil)⟩
    · rw [Bindings.names_insert, hnames, if_neg hnew, List.map_append, List.map_singleton]
    · rw [List.forall₂_iff_zip] at hvalues ⊢
      refine ⟨hvalues.1, fun {q v} hmem ↦ ?_⟩
      have hne : q.lexeme ≠ p.lexeme := fun heq ↦
        hnew (heq ▸ List.mem_map_of_mem (List.of_mem_zip hmem).1)
      rw [Bindings.get?_insert_of_ne hne]
      exact hvalues.2 hmem

/-- A machine in which a function has been entered: the parameters are bound in a new frame, inside
of the environment of the function. -/
def Machine.entered (M : Machine) (f : Closure) (b : Bindings Value) : Machine :=
  { M with frames := M.frames.push b, current := M.frames.next :: f.environment }

/-- No chain that a machine holds has a frame in it, and no chain that is given to it either. -/
structure Machine.Lacks (M : Machine) (frame : RecordId) (given : List Environment) : Prop where
  current : frame ∉ M.current
  frames : ∀ id x v, (M.frames.record id).get? x = some v → ∀ env ∈ v.environments, frame ∉ env
  objects : ∀ id x v, (M.objects.record id).get? x = some v → ∀ env ∈ v.environments, frame ∉ env
  given : ∀ env ∈ given, frame ∉ env

theorem Along.lt_length {links : List Environment} {env : Environment} (h : Along links env) :
    ∀ frame ∈ env, frame < links.length := by
  induction env with
  | nil => exact List.forall_mem_nil _
  | cons frame outer ih =>
    exact List.forall_mem_cons.mpr ⟨(List.getElem?_eq_some_iff.mp h.1).1, ih h.2⟩

/-- The next frame is in no chain. -/
theorem Machine.Linked.lacks_next {links : List Environment} {given : List Environment}
    (h : M.Linked links) (hgiven : AllAlong links given) : M.Lacks M.frames.next given := by
  have hnot : ∀ {env}, Along links env → M.frames.next ∉ env := fun henv hmem ↦
    Nat.lt_irrefl _ (h.size ▸ henv.lt_length _ hmem)
  exact ⟨hnot h.current, fun id x v hv env henv ↦ hnot (h.frames id x v hv env henv),
    fun id x v hv env henv ↦ hnot (h.objects id x v hv env henv),
    fun env henv ↦ hnot (hgiven env henv)⟩

theorem asked_callFunction (f : Closure) (vs : List Value) :
    ((Task.callFunction f vs).script host).asked answers M
      = [(⟨_, .execute f.declaration.body⟩,
        M.entered f (.ofList ((f.declaration.parameters.map Token.lexeme).zip vs)))] := by
  simp only [Task.script, Script.asked_bind, Script.asked_perform, Script.run_perform,
    Script.asked_body, Script.asked_enclose, Script.asked_answer, List.nil_append]
  rfl

/-! ## Calls as expressions -/

/-- Expressions are evaluated from left to right, and all of them have values. -/
inductive Eval.Succeeds (p : Expr → Eval Value) : List Expr → Machine → List Value → Machine → Prop
  | nil {M : Machine} : Succeeds p [] M [] M
  | cons {e : Expr} {es : List Expr} {v : Value} {vs : List Value} {M M₁ M₂ : Machine} :
      p e M = .ok v M₁ → Succeeds p es M₁ vs M₂ → Succeeds p (e :: es) M (v :: vs) M₂

/-- Expressions are evaluated from left to right, up to one that ends early. -/
inductive Eval.Fails (p : Expr → Eval Value) : List Expr → Machine → Interrupt → Machine → Prop
  | head {e : Expr} {es : List Expr} {i : Interrupt} {M M₁ : Machine} :
      p e M = .error i M₁ → Fails p (e :: es) M i M₁
  | tail {e : Expr} {es : List Expr} {v : Value} {i : Interrupt} {M M₁ M₂ : Machine} :
      p e M = .ok v M₁ → Fails p es M₁ i M₂ → Fails p (e :: es) M i M₂

theorem Eval.mapM_cases (p : Expr → Eval Value) (es : List Expr) (M : Machine) :
    (∃ vs M', es.mapM p M = .ok vs M' ∧ Succeeds p es M vs M') ∨
      ∃ i M', es.mapM p M = .error i M' ∧ Fails p es M i M' := by
  induction es generalizing M with
  | nil => exact .inl ⟨[], M, rfl, .nil⟩
  | cons e es ih =>
    rw [List.mapM_cons]
    cases he : p e M with
    | error i M₁ => exact .inr ⟨i, M₁, bind_of_error he, .head he⟩
    | ok v M₁ =>
      rcases ih M₁ with ⟨vs, M', hes, hall⟩ | ⟨i, M', hes, hsome⟩
      · exact .inl ⟨v :: vs, M', (bind_of_ok he).trans (bind_of_ok hes), .cons he hall⟩
      · exact .inr ⟨i, M', (bind_of_ok he).trans (bind_of_error hes), .tail he hsome⟩

/-- What becomes of a call expression, and which tasks are begun for it: first the callee is
evaluated and then the arguments, from left to right. Only then is it looked at what is to be called
and whether the number of arguments is right. If it is not, nothing else happens. -/
inductive Invokes (host : Host) (nesting : Nat) (callee : Expr) (paren : Token) (items : List Expr)
    (M : Machine) : EStateM.Result Interrupt Machine Value → List Begun → Prop
  | callee {i : Interrupt} {M₁ : Machine} : Eval.evaluate host nesting callee M = .error i M₁ →
      Invokes host nesting callee paren items M (.error i M₁) [(⟨_, .evaluate callee⟩, M)]
  | arguments {left : Nat} {f : Value} {i : Interrupt} {M₁ M₂ : Machine} : nesting = left + 1 →
      Eval.evaluate host nesting callee M = .ok f M₁ →
      Eval.Fails (Eval.evaluate host left) items M₁ i M₂ →
      Invokes host nesting callee paren items M (.error i M₂)
        [(⟨_, .evaluate callee⟩, M), (⟨_, .arguments items⟩, M₁)]
  | notCallable {left : Nat} {f : Value} {vs : List Value} {M₁ M₂ : Machine} : nesting = left + 1 →
      Eval.evaluate host nesting callee M = .ok f M₁ →
      Eval.Succeeds (Eval.evaluate host left) items M₁ vs M₂ → f.signature? = none →
      Invokes host nesting callee paren items M (.error (.issue (.atToken paren .notCallable)) M₂)
        [(⟨_, .evaluate callee⟩, M), (⟨_, .arguments items⟩, M₁)]
  | wrongArity {left arity : Nat} {name : String} {f : Value} {vs : List Value} {M₁ M₂ : Machine} :
      nesting = left + 1 → Eval.evaluate host nesting callee M = .ok f M₁ →
      Eval.Succeeds (Eval.evaluate host left) items M₁ vs M₂ → f.signature? = some (name, arity) →
      vs.length ≠ arity →
      Invokes host nesting callee paren items M
        (.error (.issue (.atToken paren (.wrongArity name arity vs.length))) M₂)
        [(⟨_, .evaluate callee⟩, M), (⟨_, .arguments items⟩, M₁)]
  | called {left arity : Nat} {name : String} {f : Value} {vs : List Value} {M₁ M₂ : Machine} :
      nesting = left + 1 → Eval.evaluate host nesting callee M = .ok f M₁ →
      Eval.Succeeds (Eval.evaluate host left) items M₁ vs M₂ → f.signature? = some (name, arity) →
      vs.length = arity →
      Invokes host nesting callee paren items M ((Task.call f vs).run host nesting M₂)
        [(⟨_, .evaluate callee⟩, M), (⟨_, .arguments items⟩, M₁), (⟨_, .call f vs⟩, M₂)]

theorem asked_invocation (callee : Expr) (paren : Token) (items : List Expr) :
    ((Task.invocation callee paren items).script host).asked answers M
      = (⟨_, .evaluate callee⟩, M) :: Script.behind (answers (.evaluate callee) M) fun f M₁ ↦
        (⟨_, .arguments items⟩, M₁) :: Script.behind (answers (.arguments items) M₁) fun vs M₂ ↦
          Script.behind (Eval.checkCall f paren vs.length M₂) fun _ M₃ ↦
            [(⟨_, .call f vs⟩, M₃)] := by
  simp only [Task.script, Script.asked_bind, Script.asked_perform, Script.run_perform,
    Script.run_answer, Script.asked_answer, List.singleton_append, List.nil_append]

theorem invokes (host : Host) (nesting : Nat) (callee : Expr) (paren : Token) (items : List Expr)
    (M : Machine) : Invokes host nesting callee paren items M
      ((Task.invocation callee paren items).run host (nesting + 1) M)
      (((Task.invocation callee paren items).script host).asked (Task.run host nesting) M) := by
  rw [asked_invocation]
  change Invokes _ _ _ _ _ _ (Eval.evaluateCall host (nesting + 1) callee paren items M) _
  rw [Eval.evaluateCall]
  simp only [Task.run]
  cases hcallee : Eval.evaluate host nesting callee M with
  | error i M₁ =>
    rw [bind_of_error hcallee]
    exact .callee hcallee
  | ok f M₁ =>
    rw [bind_of_ok hcallee]
    cases nesting with
    | zero => cases hcallee
    | succ left =>
      rw [Eval.evaluateArguments]
      simp only [Script.behind]
      rcases Eval.mapM_cases (Eval.evaluate host left) items M₁ with
        ⟨vs, M₂, hitems, hall⟩ | ⟨i, M₂, hitems, hsome⟩
      · rw [bind_of_ok hitems, hitems]
        simp only
        cases hsignature : f.signature? with
        | none =>
          have hcheck : Eval.checkCall f paren vs.length M₂
              = .error (.issue (.atToken paren .notCallable)) M₂ := by
            rw [Eval.checkCall, hsignature]
            rfl
          rw [bind_of_error hcheck, hcheck]
          exact .notCallable rfl hcallee hall hsignature
        | some signature =>
          obtain ⟨name, arity⟩ := signature
          by_cases harity : vs.length = arity
          · have hcheck : Eval.checkCall f paren vs.length M₂ = .ok () M₂ := by
              rw [Eval.checkCall, hsignature]
              exact congrFun (if_pos harity) M₂
            rw [bind_of_ok hcheck, hcheck]
            exact .called rfl hcallee hall hsignature harity
          · have hcheck : Eval.checkCall f paren vs.length M₂
                = .error (.issue (.atToken paren (.wrongArity name arity vs.length))) M₂ := by
              rw [Eval.checkCall, hsignature]
              exact congrFun (if_neg harity) M₂
            rw [bind_of_error hcheck, hcheck]
            exact .wrongArity rfl hcallee hall hsignature harity
      · rw [bind_of_error hitems, hitems]
        exact .arguments rfl hcallee hsome

/-! ## Constructions -/

/-- The nearest initializer, starting at a class and going up: none of the classes below the one
that has it has any. -/
structure Class.Initializer (c d : Class) (declaration : FunDecl) : Prop where
  nearest : ∃ below above, c.lineage = below ++ d :: above ∧
    ∀ e ∈ below, e.methods.get? initializerName = none
  method : d.methods.get? initializerName = some declaration

theorem Class.initializer_cases (c : Class) :
    (c.findMethod? initializerName = none ∧ c.arity = 0 ∧
      ∀ d ∈ c.lineage, d.methods.get? initializerName = none) ∨
    ∃ d declaration, c.findMethod? initializerName = some (declaration, d.environment) ∧
      c.arity = declaration.arity ∧ c.Initializer d declaration := by
  have hcontains : ∀ d : Class, d.methods.contains initializerName = false →
      d.methods.get? initializerName = none := fun d h ↦ by
    rw [Bindings.contains, Option.isSome_eq_false_iff] at h
    exact Option.isNone_iff_eq_none.mp h
  cases howner : c.owner? initializerName with
  | none =>
    have hfind : c.findMethod? initializerName = none := by
      rw [findMethod?_eq, howner]
      rfl
    refine .inl ⟨hfind, by rw [arity, hfind], fun d hd ↦ hcontains d ?_⟩
    exact Bool.not_eq_true _ ▸ List.find?_eq_none.mp howner d hd
  | some d =>
    obtain ⟨-, declaration, hdeclaration⟩ := of_owner? howner
    have hfind : c.findMethod? initializerName = some (declaration, d.environment) := by
      rw [findMethod?_eq, howner, Option.bind_some, hdeclaration]
      rfl
    obtain ⟨-, below, above, hlineage, hbelow⟩ := List.find?_eq_some_iff_append.mp howner
    refine .inr ⟨d, declaration, hfind, by rw [arity, hfind], ⟨below, above, hlineage, ?_⟩,
      hdeclaration⟩
    exact fun e he ↦ hcontains e (Bool.not_eq_true' _ ▸ hbelow e he)

/-- A machine with one more instance, which has no fields. -/
def Machine.withInstance (M : Machine) : Machine := { M with objects := M.objects.push .empty }

/-- A machine in which a method has been bound to an instance: `this` is bound in a new frame. -/
def Machine.withSelf (M : Machine) (i : Instance) : Machine :=
  { M with frames := M.frames.push (.ofList [("this", .instance i)]), nextId := M.nextId + 1 }

/-- What becomes of the call of a class, and which tasks are begun for it. There is a new instance.
If there is an initializer, it is bound to the instance and called once, with all arguments; what it
returns does not matter. If there is none, there are no arguments either. -/
inductive Constructs (host : Host) (nesting : Nat) (c : Class) (vs : List Value) (M : Machine) :
    EStateM.Result Interrupt Machine Value → List Begun → Prop
  | plain : (∀ d ∈ c.lineage, d.methods.get? initializerName = none) → vs = [] →
      Constructs host nesting c vs M (.ok (.instance ⟨M.objects.next, c⟩) M.withInstance) []
  | initialized {d : Class} {declaration : FunDecl} {i : Instance} {f : Closure} {v : Value}
      {M₁ M₂ : Machine} : c.Initializer d declaration → c.arity = declaration.parameters.length →
      vs.length = declaration.parameters.length → i = ⟨M.objects.next, c⟩ →
      f = ⟨M.nextId, declaration, M.frames.next :: d.environment⟩ →
      M₁ = M.withInstance.withSelf i → (Task.call (.function f) vs).run host nesting M₁ = .ok v M₂ →
      Constructs host nesting c vs M (.ok (.instance i) M₂) [(⟨_, .call (.function f) vs⟩, M₁)]
  | failed {d : Class} {declaration : FunDecl} {i : Instance} {f : Closure} {interrupt : Interrupt}
      {M₁ M₂ : Machine} : c.Initializer d declaration → c.arity = declaration.parameters.length →
      vs.length = declaration.parameters.length → i = ⟨M.objects.next, c⟩ →
      f = ⟨M.nextId, declaration, M.frames.next :: d.environment⟩ →
      M₁ = M.withInstance.withSelf i →
      (Task.call (.function f) vs).run host nesting M₁ = .error interrupt M₂ →
      Constructs host nesting c vs M (.error interrupt M₂) [(⟨_, .call (.function f) vs⟩, M₁)]

theorem constructs (host : Host) (nesting : Nat) {c : Class} {vs : List Value}
    (hlength : vs.length = c.arity) (M : Machine) : Constructs host nesting c vs M
      ((Task.call (.class c) vs).run host (nesting + 1) M)
      (((Task.call (.class c) vs).script host).asked (Task.run host nesting) M) := by
  rw [Task.run_succ]
  simp only [Task.script, Value.script, Script.asked_bind, Script.run_bind, Script.run_perform,
    Script.asked_perform, List.nil_append]
  have hinstance : Eval.newInstance c M = .ok ⟨M.objects.next, c⟩ M.withInstance := rfl
  rw [bind_of_ok hinstance, hinstance]
  rcases c.initializer_cases with ⟨hfind, harity, hnone⟩ | ⟨d, declaration, hfind, harity, hinit⟩
  · rw [hfind]
    exact .plain hnone (List.length_eq_zero_iff.mp (hlength.trans harity))
  · have hbind : Eval.bindMethod (declaration, d.environment) (.instance ⟨M.objects.next, c⟩)
        M.withInstance = .ok ⟨M.nextId, declaration, M.frames.next :: d.environment⟩
          (M.withInstance.withSelf ⟨M.objects.next, c⟩) := rfl
    simp only [hfind, Script.behind_ok, Script.asked_bind, Script.run_bind, Script.run_perform,
      Script.run_answer, Script.asked_perform, Script.asked_answer, Script.asked_pure,
      Script.behind_nil, List.nil_append, List.append_nil]
    rw [bind_of_ok hbind, hbind, Script.behind_ok]
    cases hcall : (Task.call (.function ⟨M.nextId, declaration, M.frames.next :: d.environment⟩)
        vs).run host nesting (M.withInstance.withSelf ⟨M.objects.next, c⟩) with
    | ok v M₂ =>
      rw [bind_of_ok hcall]
      exact .initialized hinit harity (hlength.trans harity) rfl rfl rfl hcall
    | error i M₂ =>
      rw [bind_of_error hcall]
      exact .failed hinit harity (hlength.trans harity) rfl rfl rfl hcall

/-! ## Sessions -/

theorem FunDecl.Scoped.nodup {excused : String → Prop} {ctx : Context} {f : FunDecl}
    (h : f.Scoped excused ctx) : (f.parameters.map Token.lexeme).Nodup := by
  cases h with
  | mk hnodup => exact hnodup

namespace Lexical

variable {excused : String → Prop} {outer : List Begun} {M : Lox.Machine}

theorem Sound.signature? {callee : Lox.Value} {vs : List Lox.Value}
    (h : Sound excused outer ⟨_, .call callee vs⟩ M) :
    ∃ name, callee.signature? = some (name, vs.length) := by
  cases h with
  | expressions hes => cases hes
  | statement hst => cases hst
  | call _ _ _ hsignature => exact hsignature

theorem Sound.parameters {f : Lox.Closure} {vs : List Lox.Value}
    (h : Sound excused outer ⟨_, .callFunction f vs⟩ M) :
    vs.length = f.declaration.parameters.length ∧
      (f.declaration.parameters.map Token.lexeme).Nodup := by
  cases h with
  | expressions hes => cases hes
  | statement hst => cases hst
  | callFunction _ hf _ hlength =>
    obtain ⟨ctx, -, -, hscoped, -⟩ := hf.home
    exact ⟨hlength, hscoped.nodup⟩

end Lexical

/-- Calls bind exactly, and a construction has the new instance as its value. In every session and
at every moment of it:

A function is entered with one argument for each parameter. Its body is executed once, in a frame
that is in no chain anybody holds, and there each parameter is bound to the argument in its place
and nothing else is bound. A call expression evaluates the callee and then the arguments, from left
to right; if the callee cannot be called with as many arguments, that is the issue, and the machine
is left as it was after the last argument. So whatever is called takes as many arguments as there
are. A class that is called makes an instance. The nearest initializer above the class is the one
whose parameters have been counted, and it is called once, with `this` bound to the instance; the
value of the call is the instance, whatever the initializer returns. If there is no initializer,
there are no arguments. -/
theorem calls_bind_exactly (host : Host) (earlier : List Command) (r : Command) (nesting : Nat)
    (t : Sigma Task) (M : Machine) (outer : List Begun)
    (hdoing : ((Session.start host).serveAll earlier).Doing nesting ((t, M) :: outer) r) :
    (∀ f vs, t = ⟨_, .callFunction f vs⟩ →
      vs.length = f.declaration.parameters.length ∧
      M.Lacks M.frames.next (f.environment :: vs.flatMap Value.environments) ∧
      ∃ b, BindsParameters f.declaration.parameters vs b ∧ ∀ left : Nat,
        ((Task.callFunction f vs).script host).asked (Task.run host left) M
          = [(⟨_, .execute f.declaration.body⟩, M.entered f b)]) ∧
    (∀ left callee paren items, t = ⟨_, .invocation callee paren items⟩ → nesting = left + 1 →
      Invokes host left callee paren items M
        ((Task.invocation callee paren items).run host nesting M)
        (((Task.invocation callee paren items).script host).asked (Task.run host left) M)) ∧
    (∀ callee vs, t = ⟨_, .call callee vs⟩ →
      ∃ name, callee.signature? = some (name, vs.length)) ∧
    (∀ f vs, t = ⟨_, .call (.function f) vs⟩ → ∀ left : Nat,
      ((Task.call (.function f) vs).script host).asked (Task.run host left) M
        = [(⟨_, .callFunction f vs⟩, M)]) ∧
    (∀ left c vs, t = ⟨_, .call (.class c) vs⟩ → nesting = left + 1 →
      Constructs host left c vs M ((Task.call (.class c) vs).run host nesting M)
        (((Task.call (.class c) vs).script host).asked (Task.run host left) M)) := by
  obtain ⟨μ, hs, hexcused⟩ := Lexical.exists_corresponds_before host earlier r
  obtain ⟨_, _, _, heq, hsound⟩ := Lexical.sound_of_serving hs hexcused hdoing
  cases heq
  refine ⟨?_, ?_, ?_, ?_, ?_⟩
  · rintro f vs rfl
    obtain ⟨hlength, hnodup⟩ := hsound.parameters
    obtain ⟨-, links, -, hM⟩ := Session.linked_serveAll (s := Session.start host)
      Machine.linked_start earlier
    obtain ⟨links', -, hlinked, hgiven⟩ := hdoing.extends hM
    exact ⟨hlength, hlinked.lacks_next hgiven, _, bindsParameters_ofList hnodup hlength,
      fun left ↦ asked_callFunction f vs⟩
  · rintro left callee paren items - rfl
    exact invokes host left callee paren items M
  · rintro callee vs rfl
    exact hsound.signature?
  · rintro f vs -  left
    exact Script.asked_answer _ M
  · rintro left c vs rfl rfl
    obtain ⟨name, hsignature⟩ := hsound.signature?
    have harity : c.arity = vs.length := congrArg Prod.snd (Option.some.inj hsignature)
    exact constructs host left harity.symm M

/-- Whether the innermost task of a chain is to call a class with a number of arguments. -/
def callsClass (given : Nat) : List Begun → Bool
  | (⟨_, .call (.class _) vs⟩, _) :: _ => vs.length == given
  | _ => false

theorem exists_of_callsClass {given : Nat} {chain : List Begun}
    (h : callsClass given chain = true) :
    ∃ c vs M outer, chain = (⟨_, .call (.class c) vs⟩, M) :: outer ∧ vs.length = given := by
  unfold callsClass at h
  split at h
  · exact ⟨_, _, _, _, rfl, beq_iff_eq.mp h⟩
  · cases h

/-- A class with an inherited initializer, which takes one argument. -/
theorem calls_bind_exactly_inherited :
    ∃ c vs M outer, (Session.start ⟨none, fun _ ↦ 0, 60, 9⟩).Doing 57
        ((⟨_, .call (.class c) vs⟩, M) :: outer)
        (.run "class A \x7b init(x) \x7b return; \x7d \x7d class B < A \x7b\x7d B(1);") ∧
      vs.length = 1 ∧
      Constructs ⟨none, fun _ ↦ 0, 60, 9⟩ 56 c vs M
        ((Task.call (.class c) vs).run ⟨none, fun _ ↦ 0, 60, 9⟩ 57 M)
        (((Task.call (.class c) vs).script ⟨none, fun _ ↦ 0, 60, 9⟩).asked
          (Task.run ⟨none, fun _ ↦ 0, 60, 9⟩ 56) M) := by
  have hlisted : (chains ⟨none, fun _ ↦ 0, 60, 9⟩ (programScript (compile 60
      "class A \x7b init(x) \x7b return; \x7d \x7d class B < A \x7b\x7d B(1);").program)
      Machine.start 3).any (callsClass 1) = true := by decide +kernel
  obtain ⟨chain, hchain, hcall⟩ := List.any_eq_true.mp hlisted
  obtain ⟨c, vs, M, outer, rfl, hlength⟩ := exists_of_callsClass hcall
  have hdoing : (Session.start ⟨none, fun _ ↦ 0, 60, 9⟩).Doing 57
      ((⟨_, .call (.class c) vs⟩, M) :: outer)
      (.run "class A \x7b init(x) \x7b return; \x7d \x7d class B < A \x7b\x7d B(1);") :=
    ⟨by decide +kernel, (mem_chains rfl).mp hchain⟩
  obtain ⟨-, -, -, -, hclass⟩ :=
    calls_bind_exactly ⟨none, fun _ ↦ 0, 60, 9⟩ [] _ 57 _ M outer hdoing
  exact ⟨c, vs, M, outer, hdoing, hlength, hclass 56 c vs rfl rfl⟩

end Lox
