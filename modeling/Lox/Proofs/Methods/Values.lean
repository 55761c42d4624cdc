import Lox.Proofs.Methods.Frames
import Lox.Proofs.Tasks.Chain

/-!
# Values with methods

A running machine holds functions and classes. Each of them lives in a chain of frames that fits
the context of its declaration, so it is known where its code finds `this` and `super`. A class
lives in the frame that binds its superclass, and its methods are resolved as if the frame for
`this` were there already.

It is also known where a function comes from. It is a method that has been bound to an instance, or
it was declared while the body of another function was being executed, and so on outward to a
method or out of all functions. And a class was declared at some time, when its superclass
expression had the superclass as its value.
-/

namespace Lox

/-! ## Classes and what is above them -/

namespace Class

/-- A class and all classes above it, the nearest first. -/
def lineage : Class → List Class
  | ⟨id, name, none, methods, environment⟩ => [⟨id, name, none, methods, environment⟩]
  | ⟨id, name, some c, methods, environment⟩ =>
    ⟨id, name, some c, methods, environment⟩ :: c.lineage

/-- The nearest class, starting at a class and going up, that has a method of a name. -/
def owner? (c : Class) (name : String) : Option Class :=
  c.lineage.find? fun d ↦ d.methods.contains name

theorem of_owner? {c d : Class} {name : String} (h : c.owner? name = some d) :
    d ∈ c.lineage ∧ ∃ method, d.methods.get? name = some method := by
  have hcontains := List.find?_some (p := fun d : Class ↦ d.methods.contains name) h
  exact ⟨List.mem_of_find?_eq_some h, Option.isSome_iff_exists.mp hcontains⟩

theorem mem_lineage_of_superclass {c d : Class} (h : c.superclass = some d) :
    ∀ e ∈ d.lineage, e ∈ c.lineage := by
  obtain ⟨id, name, superclass, methods, environment⟩ := c
  obtain rfl : superclass = some d := h
  exact fun e he ↦ List.mem_cons_of_mem _ he

/-- The methods of a name that a class has are those of the nearest class above it that has one. -/
theorem findMethod?_eq (c : Class) (name : String) : c.findMethod? name
    = (c.owner? name).bind fun d ↦ (d.methods.get? name).map (·, d.environment) := by
  fun_induction findMethod? c name with
  | case1 id className superclass methods environment name m hm =>
    have hcontains : methods.contains name = true := by rw [Bindings.contains, hm]; rfl
    cases superclass <;> simp [owner?, lineage, hcontains, hm]
  | case2 id className methods environment name hm =>
    simp [owner?, lineage, Bindings.contains, hm]
  | case3 id className methods environment name hm c ih =>
    rw [ih]
    simp [owner?, lineage, Bindings.contains, hm]

/-- A method of the class itself is found before those of the classes above it. -/
theorem findMethod?_of_get? {c : Class} {name : String} {method : FunDecl}
    (h : c.methods.get? name = some method) :
    c.findMethod? name = some (method, c.environment) := by
  obtain ⟨id, className, superclass, methods, environment⟩ := c
  have hmethod : methods.get? name = some method := h
  cases superclass <;> simp only [findMethod?, hmethod]

theorem exists_owner {c : Class} {name : String} {method : FunDecl × Environment}
    (h : c.findMethod? name = some method) : ∃ d, c.owner? name = some d ∧
      d.methods.get? name = some method.1 ∧ method.2 = d.environment := by
  rw [findMethod?_eq] at h
  obtain ⟨d, hd, h⟩ := Option.bind_eq_some_iff.mp h
  obtain ⟨declaration, hdeclaration, rfl⟩ := Option.map_eq_some_iff.mp h
  exact ⟨d, hd, hdeclaration, rfl⟩

theorem of_findMethod? {c : Class} {name : String} {method : FunDecl × Environment}
    (h : c.findMethod? name = some method) : ∃ d ∈ c.lineage,
      d.methods.get? name = some method.1 ∧ method.2 = d.environment := by
  obtain ⟨d, hd, hmethod⟩ := exists_owner h
  exact ⟨d, (of_owner? hd).1, hmethod⟩

/-- A class has at least its own environment. -/
theorem environments_ne_nil (c : Class) : c.environments ≠ [] := by
  obtain ⟨id, name, superclass, methods, environment⟩ := c
  cases superclass <;> exact List.cons_ne_nil _ _

/-- Every class in a lineage has its own lineage in there. -/
theorem lineage_subset {c d : Class} (h : d ∈ c.lineage) : ∀ e ∈ d.lineage, e ∈ c.lineage := by
  fun_induction lineage c with
  | case1 id name methods environment =>
    rw [List.mem_singleton.mp h]
    exact fun e he ↦ he
  | case2 id name c methods environment ih =>
    rcases List.mem_cons.mp h with rfl | h
    · exact fun e he ↦ he
    · exact fun e he ↦ List.mem_cons_of_mem _ (ih h e he)

end Class

/-! ## Where functions and classes come from -/

/-- The tasks that have been begun, each with the number of nested calls that it may still make,
the function in whose body it is, and the machine as it was then. -/
abbrev History := Nat → Option Closure → Sigma Task → Machine → Prop

/-- A function is a method of a class, bound to an instance of the class or of a class below it: it
lives in a frame of its own, which binds `this` and is inside of the environment of the class. -/
structure Closure.MethodOf (s : Store Value) (f : Closure) (c : Class) (i : Instance) : Prop where
  method : ∃ name, c.methods.get? name = some f.declaration
  above : c ∈ i.class.lineage
  bound : ∃ frame, f.environment = frame :: c.environment ∧
    (s.record frame).get? "this" = some (.instance i)

/-- The functions whose code is inside of a function: the function itself, and what is declared
while the body of such a function is being executed. The methods of a class that is declared there
are not among them. -/
inductive Closure.Contains (H : History) (outer : Closure) : Closure → Prop
  | itself : Contains H outer outer
  | declared {f g : Closure} {nesting : Nat} {M : Machine} : Contains H outer f →
      H nesting (some f) ⟨_, .execute (.function g.declaration)⟩ M → g.environment = M.current →
      Contains H outer g

/-- The code of a function is inside of a method, or else inside of a function that was declared
outside of all functions. -/
inductive Closure.Known (H : History) (s : Store Value) (g : Closure) : Prop
  | method {f : Closure} {c : Class} {i : Instance} : f.MethodOf s c i → f.Contains H g →
      s.Encloses f.environment g.environment → Known H s g
  | plain {f : Closure} {nesting : Nat} {M : Machine} :
      H nesting none ⟨_, .execute (.function f.declaration)⟩ M → f.environment = M.current →
      s.Bare f.environment → f.Contains H g → s.Encloses f.environment g.environment → Known H s g

/-- A class is what a declaration makes of it: its superclass is what the superclass expression is
worth at that time, and its environment is a new frame inside of the current ones. -/
structure Class.DeclaredBy (c : Class) (name : Token) (superclass : Option Reference)
    (methods : List FunDecl) (M : Machine) : Prop where
  name : c.name = name.lexeme
  methods : c.methods = .ofList (methods.map fun m ↦ (m.name.lexeme, m))
  environment : c.environment = M.frames.next :: M.current
  parent : match superclass with
    | none => c.superclass = none
    | some r => ∃ parent, Eval.lookup r M = .ok (.class parent) M ∧ c.superclass = some parent

/-- A class was declared in the course of a history. -/
def Class.Declared (H : History) (c : Class) : Prop :=
  ∃ nesting running name superclass methods M,
    H nesting running ⟨_, .execute (.class name superclass methods)⟩ M ∧
      c.DeclaredBy name superclass methods M

/-! ## Values that fit -/

/-- Whether a variable is on the way does not matter to `this` and `super`, so all assignments to
such variables are admitted here. -/
abbrev anyName : String → Prop := fun _ ↦ True

/-- A function is known, and lives in frames that fit the context from which its distances come. -/
structure Closure.Fits (H : History) (s : Store Value) (f : Closure) : Prop where
  known : f.Known H s
  resolved : ∃ ctx : Context, ctx.Proper ∧ s.Fits ctx f.environment ∧
    f.declaration.Scoped anyName ctx

/-- A class lives in frames that fit a context, and the innermost of them binds its superclass. The
context of its methods has the scope of `this` in addition. -/
structure Class.Resolved (s : Store Value) (c : Class) (ctx : Context) : Prop where
  proper : ctx.Proper
  fits : s.Fits (.parent c.superclass.isSome :: ctx) c.environment
  parent : ∀ frame ∈ c.environment.head?, (s.record frame).get? "super" = c.superclass.map .class
  methods : ∀ name method, c.methods.get? name = some method →
    method.Scoped anyName (.self :: .parent c.superclass.isSome :: ctx)

/-- A class was declared at some time, and lives in frames that fit the context of that place. -/
structure Class.Fits (H : History) (s : Store Value) (c : Class) : Prop where
  declared : c.Declared H
  resolved : ∃ ctx, c.Resolved s ctx

/-- The functions and classes that a value holds fit the frames. -/
def Value.Fits (H : History) (s : Store Value) : Value → Prop
  | .function f => f.Fits H s
  | .class c => ∀ d ∈ c.lineage, d.Fits H s
  | .instance i => ∀ d ∈ i.class.lineage, d.Fits H s
  | .nil | .bool _ | .number _ | .string _ | .native _ => True

/-- A value that leaves a function fits the frames. -/
def Interrupt.Fits (H : History) (s : Store Value) : Interrupt → Prop
  | .returning v => v.Fits H s
  | .issue _ | .desync _ | .stuck | .exhausted => True

section Fits

variable {H : History} {s s' : Store Value}

theorem Closure.MethodOf.mono {f : Closure} {c : Class} {i : Instance} (h : f.MethodOf s c i)
    (hs : s.Precedes s') : f.MethodOf s' c i := by
  obtain ⟨frame, henv, hthis⟩ := h.bound
  refine ⟨h.method, h.above, frame, henv, ?_⟩
  rw [hs.get? frame (Store.lt_next_of_get? hthis) _ not_ordinary_this, hthis]

/-- What a method is bound to was so before, as far as its frame was there. -/
theorem Closure.MethodOf.earlier {f : Closure} {c : Class} {i : Instance} (h : f.MethodOf s' c i)
    (hs : s.Precedes s') (hlt : ∀ frame ∈ f.environment.head?, frame < s.next) :
    f.MethodOf s c i := by
  obtain ⟨frame, henv, hthis⟩ := h.bound
  rw [henv] at hlt
  refine ⟨h.method, h.above, frame, henv, ?_⟩
  rw [← hs.get? frame (hlt frame rfl) _ not_ordinary_this, hthis]

theorem Closure.Known.mono {f : Closure} (h : f.Known H s) (hs : s.Precedes s') : f.Known H s' := by
  cases h with
  | method hmethod hcontains hencloses =>
    exact .method (hmethod.mono hs) hcontains (hencloses.mono hs)
  | plain hH henv hbare hcontains hencloses =>
    exact .plain hH henv (hbare.mono hs) hcontains (hencloses.mono hs)

theorem Closure.Fits.mono {f : Closure} (h : f.Fits H s) (hs : s.Precedes s') : f.Fits H s' := by
  obtain ⟨ctx, hproper, hfits, hscoped⟩ := h.resolved
  exact ⟨h.known.mono hs, ctx, hproper, hfits.mono hs, hscoped⟩

theorem Class.Fits.mono {c : Class} (h : c.Fits H s) (hs : s.Precedes s') : c.Fits H s' := by
  obtain ⟨ctx, hc⟩ := h.resolved
  refine ⟨h.declared, ctx, hc.proper, hc.fits.mono hs, fun frame hframe ↦ ?_, hc.methods⟩
  have hlt := hc.fits.lt_next frame (List.mem_of_head? hframe)
  rw [hs.get? frame hlt _ not_ordinary_super]
  exact hc.parent frame hframe

theorem Value.Fits.mono {v : Value} (h : v.Fits H s) (hs : s.Precedes s') : v.Fits H s' := by
  cases v with
  | function f => exact Closure.Fits.mono h hs
  | «class» c => exact fun d hd ↦ (h d hd).mono hs
  | «instance» i => exact fun d hd ↦ (h d hd).mono hs
  | _ => trivial

/-- A value without functions and classes fits any frames. -/
theorem Value.fits_of_environments {v : Value} (h : v.environments = []) : v.Fits H s := by
  cases v with
  | function f => cases h
  | «class» c => exact (c.environments_ne_nil h).elim
  | «instance» i => exact (i.class.environments_ne_nil h).elim
  | _ => trivial

theorem Literal.toValue_fits (value : Literal) : value.toValue.Fits H s := by
  cases value <;> trivial

end Fits

/-! ## Machines that fit -/

/-- The environment is that of some code in the body of a function, or outside of all functions. -/
inductive Store.Around (H : History) (s : Store Value) : Option Closure → Environment → Prop
  | outside {env : Environment} : s.Bare env → Around H s none env
  | inside {f : Closure} {env : Environment} : f.Fits H s → s.Encloses f.environment env →
      Around H s (some f) env

namespace Store.Around

variable {H : History} {s s' : Store Value} {running : Option Closure} {env : Environment}

theorem mono (h : s.Around H running env) (hs : s.Precedes s') : s'.Around H running env := by
  cases h with
  | outside hbare => exact .outside (hbare.mono hs)
  | inside hf hencloses => exact .inside (hf.mono hs) (hencloses.mono hs)

theorem push (h : s.Around H running env) {b : Bindings Value} (hb : b.get? "this" = none) :
    (s.push b).Around H running (s.next :: env) := by
  cases h with
  | outside hbare => exact .outside (hbare.push hb)
  | inside hf hencloses => exact .inside (hf.mono (Store.precedes_push s b)) (hencloses.push hb)

/-- A function that is declared somewhere is known, because the function is in whose body it is
declared. -/
theorem known {nesting : Nat} {g : Closure} {M : Machine}
    (h : s.Around H running M.current)
    (hH : H nesting running ⟨_, .execute (.function g.declaration)⟩ M)
    (henv : g.environment = M.current) : g.Known H s := by
  cases h with
  | outside hbare => exact .plain hH henv (henv ▸ hbare) .itself (.refl _ _)
  | inside hf hencloses =>
    rw [← henv] at hencloses
    cases hf.known with
    | method hmethod hcontains hencloses' =>
      exact .method hmethod (hcontains.declared hH henv) (hencloses'.trans hencloses)
    | plain hH' henv' hbare hcontains hencloses' =>
      exact .plain hH' henv' hbare (hcontains.declared hH henv) (hencloses'.trans hencloses)

end Store.Around

namespace Machine

/-- All values that a machine holds fit its frames. -/
structure Fits (H : History) (M : Machine) : Prop where
  frames : ∀ id x v, (M.frames.record id).get? x = some v → v.Fits H M.frames
  objects : ∀ id x v, (M.objects.record id).get? x = some v → v.Fits H M.frames

/-- Some part of a program leads from a machine to another one. The environment is the same then,
and the frames bind `this` and `super` as before. -/
structure LeadsTo (H : History) (M M' : Machine) : Prop where
  fits : M'.Fits H
  current : M'.current = M.current
  frames : M.frames.Precedes M'.frames

variable {H : History} {M M' M'' : Machine}

theorem Fits.leadsTo (h : M.Fits H) : M.LeadsTo H M := ⟨h, rfl, .refl _⟩

theorem LeadsTo.trans (h : M.LeadsTo H M') (h' : M'.LeadsTo H M'') : M.LeadsTo H M'' :=
  ⟨h'.fits, h'.current.trans h.current, h.frames.trans h'.frames⟩

/-- The machine is at a place with a context, in the body of a function or outside of all
functions. -/
structure At (H : History) (running : Option Closure) (ctx : Context) (M : Machine) : Prop where
  fits : M.Fits H
  proper : ctx.Proper
  current : M.frames.Fits ctx M.current
  around : M.frames.Around H running M.current

theorem At.leadsTo {running : Option Closure} {ctx : Context} (h : M.At H running ctx)
    (hM : M.LeadsTo H M') : M'.At H running ctx := by
  refine ⟨hM.fits, h.proper, ?_, ?_⟩
  · rw [hM.current]
    exact h.current.mono hM.frames
  · rw [hM.current]
    exact h.around.mono hM.frames

/-- At the start only the built-in functions are there. -/
theorem at_start : start.At H none [] := by
  have hbare : start.frames.Bare globals := by
    rw [Store.Bare, globals, List.forall_mem_cons, List.forall_mem_singleton]
    decide
  refine ⟨⟨fun id x v hv ↦ ?_, fun id x v hv ↦ ?_⟩, .outside, .outside hbare, .outside hbare⟩
  · rcases Store.get?_of_push hv with hv | hv
    · cases hv
    · rcases Store.get?_of_push hv with hv | hv
      · obtain ⟨n, -, heq⟩ := List.mem_map.mp (Bindings.mem_of_get?_ofList hv)
        cases heq
        trivial
      · rw [Store.record_of_le (Nat.zero_le id)] at hv
        cases hv
  · rw [start, Store.record_of_le (Nat.zero_le id)] at hv
    cases hv

end Machine

end Lox
