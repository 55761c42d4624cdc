import Lox.Proofs.Methods.Moments
import Lox.Proofs.Tasks.Listing

/-!
# What methods find as `this` and `super`

All code that a session executes is outside of all functions, or inside of a function that was
declared there, or inside of a method that is bound to an instance. Inside of a method `this` is
the instance and `super` is what was the superclass when the class was declared. It is so at every
moment of the session: in blocks and loops, in functions that are declared in the method, and also
when these are called long after the method has returned.
-/

namespace Lox

def Expr.isSelf : Expr → Bool
  | self _ => true
  | _ => false

def Expr.isInherited : Expr → Bool
  | inherited _ _ => true
  | _ => false

def Eval.succeeds {α : Type} (p : Eval α) (M : Machine) : Bool :=
  match p M with
  | .ok _ _ => true
  | .error _ _ => false

theorem Eval.not_succeeds_of_error {α : Type} {p : Eval α} {M M' : Machine} {i : Interrupt}
    (h : p M = .error i M') : ¬ p.succeeds M = true := by
  rw [succeeds, h]
  exact Bool.false_ne_true

namespace Session

/-- In the code of a function, a task is begun. -/
def Executes (s : Session) (commands : List Command) (f : Closure) (nesting : Nat) (t : Sigma Task)
    (M : Machine) : Prop :=
  ∃ outer g, s.Moment commands nesting ((t, M) :: outer) ∧ running? outer = some g ∧
    f.Contains (s.tasks commands) g

variable {s : Session} {commands : List Command} {f g : Closure} {c : Class} {i : Instance}
  {nesting : Nat} {t : Sigma Task} {M M₀ : Machine} {outer : List Begun}

/-- What a method is bound to is the same at any two moments at which its frame exists. -/
theorem Passes.methodOf (h : s.Passes commands M) (hs : s.machine.At (s.tasks commands) none [])
    (hpasses : s.Passes commands M₀) (hmethod : f.MethodOf M₀.frames c i)
    (hlt : ∀ frame ∈ f.environment.head?, frame < M.frames.next) : f.MethodOf M.frames c i :=
  (hmethod.mono (hpasses.fits hs).2).earlier (h.fits hs).2 hlt

/-- Any function that is being executed is known. -/
theorem Moment.known (h : s.Moment commands nesting ((t, M) :: outer))
    (hs : s.machine.At (s.tasks commands) none []) (hrunning : running? outer = some g) :
    g.Known (s.tasks commands) M.frames := by
  obtain ⟨ctx, hM⟩ := (h.suited hs).1.exists_at
  rw [hrunning] at hM
  cases hM.around with
  | inside hg => exact hg.known

/-- The environment of a function is around all functions that are declared in its code. -/
theorem encloses_of_contains (hs : s.machine.At (s.tasks commands) none [])
    (h : f.Contains (s.tasks commands) g) :
    (s.serveAll commands).machine.frames.Encloses f.environment g.environment := by
  induction h with
  | itself => exact .refl _ _
  | declared _ hdeclared henv ih =>
    obtain ⟨outer, hmoment, hrunning⟩ := hdeclared
    obtain ⟨ctx, hM⟩ := (hmoment.suited hs).1.exists_at
    rw [hrunning] at hM
    cases hM.around with
    | inside _ hencloses =>
      rw [henv]
      exact ih.trans (hencloses.mono (hmoment.passes.fits hs).2)

/-- Wherever an expression stands in the code of a method, it finds the instance of the method. -/
theorem Executes.finds (h : s.Executes commands f nesting t M)
    (hs : s.machine.At (s.tasks commands) none []) (hpasses : s.Passes commands M₀)
    (hmethod : f.MethodOf M₀.frames c i) {es : List Expr} (hes : t.2.expressions? = some es) :
    ∃ ctx pending d, M.Finds ctx c i d ∧ ∀ e ∈ es, e.Scoped anyName ctx pending := by
  obtain ⟨outer, g, hmoment, hrunning, hcontains⟩ := h
  obtain ⟨ctx, pending, hM, hscoped⟩ := (hmoment.suited hs).1.of_expressions hes
  obtain ⟨-, hend⟩ := hmoment.passes.fits hs
  rw [hrunning] at hM
  cases hM.around with
  | inside hg hencloses =>
    -- Both functions are compared at the end of the session, where all frames are there.
    have hinside : M.frames.Encloses f.environment M.current :=
      ((encloses_of_contains hs hcontains).trans (hencloses.mono hend)).earlier hend
        hM.current.lt_next
    have hbound : f.MethodOf M.frames c i := by
      refine hmoment.passes.methodOf hs hpasses hmethod fun frame hframe ↦ ?_
      obtain ⟨frames, hcurrent, -⟩ := hinside
      refine hM.current.lt_next frame ?_
      rw [hcurrent]
      exact List.mem_append_right _ (List.mem_of_head? hframe)
    obtain ⟨d, hfinds⟩ := hM.finds hbound hinside
    exact ⟨ctx, pending, d, hfinds, hscoped⟩

/-! ## Finding code of methods -/

/-- A function around which `this` is bound somewhere is inside of a method. -/
theorem Moment.exists_method (h : s.Moment commands nesting ((t, M) :: outer))
    (hs : s.machine.At (s.tasks commands) none []) (hrunning : running? outer = some g)
    (hthis : ∃ id ∈ g.environment, ((M.frames.record id).get? "this").isSome) :
    ∃ f c i, f.MethodOf M.frames c i ∧ s.Executes commands f nesting t M := by
  cases h.known hs hrunning with
  | method hmethod hcontains => exact ⟨_, _, _, hmethod, outer, g, h, hrunning, hcontains⟩
  | plain _ _ hbare _ hencloses =>
    obtain ⟨id, hid, hthis⟩ := hthis
    rw [(hencloses.bare hbare id hid).2] at hthis
    cases hthis

/-- Whether the innermost task of a chain is to evaluate an expression that satisfies a condition,
in a function around which `this` is bound. -/
def evaluatesInside (p : Expr → Machine → Bool) : List Begun → Bool
  | (⟨_, .evaluate e⟩, M) :: outer =>
    p e M && (running? outer).any fun g ↦
      g.environment.any fun id ↦ ((M.frames.record id).get? "this").isSome
  | _ => false

theorem exists_of_evaluatesInside {p : Expr → Machine → Bool} {chain : List Begun}
    (h : evaluatesInside p chain = true) : ∃ e M outer g, chain = (⟨_, .evaluate e⟩, M) :: outer ∧
      p e M = true ∧ running? outer = some g ∧
        ∃ id ∈ g.environment, ((M.frames.record id).get? "this").isSome := by
  unfold evaluatesInside at h
  split at h
  · rename_i e M outer
    obtain ⟨hp, h⟩ := Bool.and_eq_true_iff.mp h
    cases hrunning : running? outer with
    | none =>
      rw [hrunning] at h
      cases h
    | some g =>
      rw [hrunning] at h
      exact ⟨e, M, outer, g, rfl, hp, hrunning, List.any_eq_true.mp h⟩
  · cases h

/-- A program that has such a chain executes code of a method there. -/
theorem exists_executes (host : Host) (source : String) (p : Expr → Machine → Bool) (made : Nat)
    (hclean : (compile host.nesting source).hasErrors = false)
    (hmade : made + nesting = host.nesting)
    (h : (chains host (programScript (compile host.nesting source).program) Machine.start made).any
      (evaluatesInside p) = true) :
    ∃ e M f c i, p e M = true ∧ (start host).Passes [.run source] M ∧ f.MethodOf M.frames c i ∧
      (start host).Executes [.run source] f nesting ⟨_, .evaluate e⟩ M := by
  obtain ⟨chain, hchain, hinside⟩ := List.any_eq_true.mp h
  obtain ⟨e, M, outer, g, rfl, hp, hrunning, hthis⟩ := exists_of_evaluatesInside hinside
  have hmoment : (start host).Moment [.run source] nesting ((⟨_, .evaluate e⟩, M) :: outer) :=
    ⟨[], .run source, [], rfl, hclean, (mem_chains hmade).mp hchain⟩
  obtain ⟨f, c, i, hmethod, hexecutes⟩ := hmoment.exists_method Machine.at_start hrunning hthis
  exact ⟨e, M, f, c, i, hp, hmoment.passes, hmethod, hexecutes⟩

end Session

/-- Inside of methods `this` is fixed and `super` is static. Every function that a session executes
is known to be inside of a method that is bound to an instance, or to be outside of all methods. If
at some moment of the session a method of a class is bound to an instance, the class was declared
at a moment at which its superclass expression had the superclass as its value, and the method is
bound to that instance at every moment at which its frame exists.

Whenever the code of the method, or that of a function declared in there, evaluates `this`, the
value is the instance. Whenever it evaluates `super`, the search for the method begins at the
superclass of the class, and the method of the nearest class that has it is bound to the instance.
It is an issue if no class has it, and another one if the class has no superclass. -/
theorem this_fixed_and_super_static (host : Host) (commands : List Command) :
    (∀ nesting t M outer g, (Session.start host).Moment commands nesting ((t, M) :: outer) →
      running? outer = some g → g.Known ((Session.start host).tasks commands) M.frames) ∧
    ∀ M₀ f c i, (Session.start host).Passes commands M₀ → Closure.MethodOf M₀.frames f c i →
      c.Declared ((Session.start host).tasks commands) ∧
      (∀ M, (Session.start host).Passes commands M →
        (∀ frame ∈ f.environment.head?, frame < M.frames.next) → f.MethodOf M.frames c i) ∧
      (∀ nesting keyword M, (Session.start host).Executes commands f (nesting + 1)
          ⟨_, .evaluate (.self keyword)⟩ M →
        Eval.evaluate host (nesting + 1) (.self keyword) M = .ok (.instance i) M) ∧
      ∀ nesting keyword method M, (Session.start host).Executes commands f (nesting + 1)
          ⟨_, .evaluate (.inherited keyword method)⟩ M →
        (c.superclass = none → Eval.evaluate host (nesting + 1) (.inherited keyword method) M
          = .error (.issue (.atToken keyword.name .noSuperclass)) M) ∧
        ∀ parent, c.superclass = some parent →
          (parent.owner? method.lexeme = none →
            Eval.evaluate host (nesting + 1) (.inherited keyword method) M
              = .error (.issue (.atToken method (.undefinedProperty method.lexeme))) M) ∧
          ∀ d, parent.owner? method.lexeme = some d → ∃ g M',
            Eval.evaluate host (nesting + 1) (.inherited keyword method) M = .ok (.function g) M' ∧
              g.MethodOf M'.frames d i ∧ d.methods.get? method.lexeme = some g.declaration := by
  have hs : (Session.start host).machine.At ((Session.start host).tasks commands) none [] :=
    Machine.at_start
  refine ⟨fun nesting t M outer g hmoment hrunning ↦ hmoment.known hs hrunning,
    fun M₀ f c i hpasses hmethod ↦ ⟨?_, fun M hM hlt ↦ hM.methodOf hs hpasses hmethod hlt,
      fun nesting keyword M hexecutes ↦ ?_, fun nesting keyword method M hexecutes ↦ ?_⟩⟩
  · obtain ⟨frame, -, hthis⟩ := hmethod.bound
    exact ((hpasses.fits hs).1.frames frame _ _ hthis c hmethod.above).declared
  · obtain ⟨ctx, pending, d, hfinds, hscoped⟩ := hexecutes.finds hs hpasses hmethod rfl
    exact hfinds.lookup_self (hscoped _ List.mem_cons_self)
  · obtain ⟨ctx, pending, d, hfinds, hscoped⟩ := hexecutes.finds hs hpasses hmethod rfl
    have hexpr := hscoped _ List.mem_cons_self
    refine ⟨fun hnone ↦ hfinds.inherited_of_none hexpr hnone, fun parent hparent ↦ ?_⟩
    have hrun : Eval.evaluate host (nesting + 1) (.inherited keyword method) M = _ :=
      hfinds.inherited_of_some hexpr hparent
    refine ⟨fun hnone ↦ ?_, fun d hd ↦ ?_⟩
    · rw [hrun, Class.findMethod?_eq, hnone]
      rfl
    · have habove : ∀ e ∈ parent.lineage, e ∈ i.class.lineage := fun e he ↦
        Class.lineage_subset hmethod.above e (Class.mem_lineage_of_superclass hparent e he)
      obtain ⟨found, g, M', hfound, hbind, hg, hdeclaration⟩ := methodOf_bindMethod habove hd M
      refine ⟨g, M', ?_, hg, hdeclaration⟩
      rw [hrun, hfound]
      change (Value.function <$> Eval.bindMethod found (.instance i)) M = _
      rw [← bind_pure_comp, bind_of_ok hbind]
      rfl

/-- In this program a function outlives the call of the method in which it is declared. -/
def escaping : String :=
  "class A \x7b m() \x7b\x7d \x7d class B < A \x7b t() \x7b " ++
    "fun f() \x7b super.m; this; \x7d return f; \x7d \x7d var f = B().t(); A = nil; f();"

theorem this_fixed_and_super_static_escaping :
    (∃ f c i keyword M, (Session.start ⟨none, fun _ ↦ 0, 60, 9⟩).Executes [.run escaping] f 52
        ⟨_, .evaluate (.self keyword)⟩ M ∧ f.MethodOf M.frames c i ∧
      Eval.evaluate ⟨none, fun _ ↦ 0, 60, 9⟩ 52 (.self keyword) M = .ok (.instance i) M) ∧
    ∃ f c i keyword method M,
      (Session.start ⟨none, fun _ ↦ 0, 60, 9⟩).Executes [.run escaping] f 52
        ⟨_, .evaluate (.inherited keyword method)⟩ M ∧ f.MethodOf M.frames c i ∧
      ∃ g M' d, Eval.evaluate ⟨none, fun _ ↦ 0, 60, 9⟩ 52 (.inherited keyword method) M
        = .ok (.function g) M' ∧ g.MethodOf M'.frames d i := by
  have hclean : (compile 60 escaping).hasErrors = false := by decide +kernel
  obtain ⟨-, hmethods⟩ :=
    this_fixed_and_super_static ⟨none, fun _ ↦ 0, 60, 9⟩ [.run escaping]
  constructor
  · obtain ⟨e, M, f, c, i, he, hpasses, hmethod, hexecutes⟩ :=
      Session.exists_executes ⟨none, fun _ ↦ 0, 60, 9⟩ escaping (fun e _ ↦ e.isSelf) 8 hclean
        (rfl : 8 + 52 = 60) (by decide +kernel)
    cases e with
    | self keyword =>
      obtain ⟨-, -, hself, -⟩ := hmethods M f c i hpasses hmethod
      exact ⟨f, c, i, keyword, M, hexecutes, hmethod, hself 51 keyword M hexecutes⟩
    | _ => cases he
  · obtain ⟨e, M, f, c, i, he, hpasses, hmethod, hexecutes⟩ :=
      Session.exists_executes ⟨none, fun _ ↦ 0, 60, 9⟩ escaping (fun e M ↦ e.isInherited &&
          (Eval.evaluate ⟨none, fun _ ↦ 0, 60, 9⟩ 52 e).succeeds M) 8 hclean
        (rfl : 8 + 52 = 60) (by decide +kernel)
    obtain ⟨he, hok⟩ := Bool.and_eq_true_iff.mp he
    cases e with
    | inherited keyword method =>
      obtain ⟨-, -, -, hsuper⟩ := hmethods M f c i hpasses hmethod
      obtain ⟨hnone, hsome⟩ := hsuper 51 keyword method M hexecutes
      refine ⟨f, c, i, keyword, method, M, hexecutes, hmethod, ?_⟩
      cases hparent : c.superclass with
      | none => exact (Eval.not_succeeds_of_error (hnone hparent) hok).elim
      | some parent =>
        obtain ⟨hnone, hsome⟩ := hsome parent hparent
        cases howner : parent.owner? method.lexeme with
        | none => exact (Eval.not_succeeds_of_error (hnone howner) hok).elim
        | some d =>
          obtain ⟨g, M', hrun, hg, -⟩ := hsome d howner
          exact ⟨g, M', d, hrun, hg⟩
    | _ => cases he

/-- The function that is called last stems from a method of `B`, whose superclass was `A` once. -/
example : ((Session.start ⟨none, fun _ ↦ 0, 60, 10⟩).run
    ("class A \x7b m() \x7b return 1; \x7d \x7d " ++
      "class B < A \x7b m() \x7b return 2; \x7d " ++
        "t() \x7b fun f() \x7b return super.m(); \x7d return f; \x7d \x7d " ++
      "class C < B \x7b m() \x7b return 3; \x7d \x7d " ++
      "var f = C().t(); A = nil; B = nil; print f() == 1;")).1.printed = ["true"] := by
  decide +kernel

end Lox
