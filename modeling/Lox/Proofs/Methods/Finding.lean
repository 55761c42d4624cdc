import Lox.Proofs.Methods.Values

/-!
# Finding `this` and `super`

Inside of a method that is bound to an instance, the frame of `this` is at the distance to `this`,
and the frame of the superclass is right behind it. So an expression finds the instance, and the
class that was the superclass when the class was declared. The class of the instance does not
matter: it may be any class below, which overrides what it likes.
-/

namespace Lox

/-! ## Methods that are bound -/

/-- Whatever method is found for an instance, starting at its class or further up, is bound as a
method of the nearest class that has it. -/
theorem methodOf_bindMethod {k c : Class} {i : Instance} {name : String}
    (hk : ∀ d ∈ k.lineage, d ∈ i.class.lineage) (hc : k.owner? name = some c) (M : Machine) :
    ∃ method f M', k.findMethod? name = some method ∧
      Eval.bindMethod method (.instance i) M = .ok f M' ∧ f.MethodOf M'.frames c i ∧
      c.methods.get? name = some f.declaration := by
  obtain ⟨hmem, declaration, hdeclaration⟩ := Class.of_owner? hc
  refine ⟨(declaration, c.environment), ⟨M.nextId, declaration, M.frames.next :: c.environment⟩, _,
    ?_, rfl, ⟨⟨name, hdeclaration⟩, hk c hmem, ⟨_, rfl, ?_⟩⟩, hdeclaration⟩
  · rw [Class.findMethod?_eq, hc, Option.bind_some, hdeclaration, Option.map_some]
  · change ((M.frames.push (.ofList [("this", .instance i)])).record M.frames.next).get? "this" = _
    rw [Store.record_push_self]
    rfl

/-- The frame of `this` is in front of the frame that binds the superclass of the class. -/
theorem Closure.MethodOf.exists_frames {H : History} {s : Store Value} {f : Closure} {c : Class}
    {i : Instance} (h : f.MethodOf s c i) (hi : Value.Fits H s (.instance i)) :
    ∃ self parent rest, f.environment = self :: parent :: rest ∧
      (s.record self).get? "this" = some (.instance i) ∧
      (s.record parent).get? "super" = c.superclass.map .class := by
  obtain ⟨self, henv, hself⟩ := h.bound
  obtain ⟨ctx, hc⟩ := (hi c h.above).resolved
  obtain ⟨parent, rest, hparent⟩ := hc.fits.exists_cons
  exact ⟨self, parent, rest, by rw [henv, hparent], hself, hc.parent parent (by rw [hparent]; rfl)⟩

/-! ## Expressions -/

/-- At a place with a context, an instance is found as `this`, and behind it the superclass of a
class is found as `super`, if the class has one. -/
structure Machine.Finds (M : Machine) (ctx : Context) (c : Class) (i : Instance) (d : Nat) :
    Prop where
  inherits : ctx.inherits = c.superclass.isSome
  distance : ctx.distance? "this" = some d
  self : M.frames.getAt M.current d "this" = .ok (.instance i)
  parent : ∀ parent, c.superclass = some parent → ctx.distance? "super" = some (d + 1) ∧
    M.frames.getAt M.current (d + 1 : Nat) "super" = .ok (.class parent)

namespace Machine.Finds

variable {M : Machine} {ctx : Context} {pending : Option String} {c parent : Class} {i : Instance}
  {d : Nat} {keyword : Reference} {method : Token}

theorem lookup_self (h : M.Finds ctx c i d)
    (hscoped : (Expr.self keyword).Scoped anyName ctx pending) :
    Eval.lookup keyword M = .ok (.instance i) M := by
  cases hscoped with
  | self hname hdistance =>
    rw [Eval.lookup_of_distance (hdistance.trans h.distance), Eval.getAt_run, hname, h.self]

/-- Without a superclass there is no distance to `super`, whatever classes are further out. -/
theorem inherited_of_none (h : M.Finds ctx c i d)
    (hscoped : (Expr.inherited keyword method).Scoped anyName ctx pending)
    (hparent : c.superclass = none) : Eval.inherited keyword method M
      = .error (.issue (.atToken keyword.name .noSuperclass)) M := by
  cases hscoped with
  | inherited hdistance =>
    rw [h.inherits, hparent] at hdistance
    rw [Eval.inherited, show keyword.distance = none from hdistance]
    rfl

/-- With a superclass, the search for the method begins there, and what is found is bound to the
same instance. -/
theorem inherited_of_some (h : M.Finds ctx c i d)
    (hscoped : (Expr.inherited keyword method).Scoped anyName ctx pending)
    (hparent : c.superclass = some parent) : Eval.inherited keyword method M
      = (match parent.findMethod? method.lexeme with
        | some m => Value.function <$> Eval.bindMethod m (.instance i)
        | none => Eval.fail method (.undefinedProperty method.lexeme)) M := by
  obtain ⟨hsuper, hparentAt⟩ := h.parent parent hparent
  cases hscoped with
  | inherited hdistance =>
    rw [h.inherits, hparent, if_pos (by rfl), hsuper] at hdistance
    have hgetSelf : Eval.getAt (((d + 1 : Nat) : Int) - 1) "this" M = .ok (.instance i) M := by
      rw [show ((d + 1 : Nat) : Int) - 1 = d by omega, Eval.getAt_run, h.self]
    have hgetParent : Eval.getAt ((d + 1 : Nat) : Int) "super" M = .ok (.class parent) M := by
      rw [Eval.getAt_run, hparentAt]
    rw [Eval.inherited, hdistance]
    exact (bind_of_ok hgetParent).trans (bind_of_ok hgetSelf)

end Machine.Finds

namespace Machine.At

variable {H : History} {running : Option Closure} {ctx : Context} {M : Machine}

/-- The code of a method finds the instance and the superclass. -/
theorem finds (h : M.At H running ctx) {f : Closure} {c : Class} {i : Instance}
    (hmethod : f.MethodOf M.frames c i) (hencloses : M.frames.Encloses f.environment M.current) :
    ∃ d, M.Finds ctx c i d := by
  obtain ⟨frame, -, hthis⟩ := hmethod.bound
  obtain ⟨self, parent, rest, henv, hself, hparent⟩ :=
    hmethod.exists_frames (h.fits.frames frame _ _ hthis)
  obtain ⟨frames, hcurrent, hbare⟩ := hencloses
  rw [henv] at hcurrent
  obtain ⟨hdistance, hinherits, hsuper⟩ :=
    h.current.distances h.proper hcurrent hbare (by rw [hself]; rfl)
  rw [hparent, Option.isSome_map] at hinherits
  have hdrop : M.current.drop frames.length = self :: parent :: rest := by
    rw [hcurrent, List.drop_left]
  have hdrop' : M.current.drop (frames.length + 1) = parent :: rest := by
    rw [← List.drop_drop, hdrop, List.drop_one, List.tail_cons]
  refine ⟨frames.length, hinherits, hdistance, Store.getAt_of_drop hdrop hself,
    fun p hp ↦ ⟨?_, Store.getAt_of_drop hdrop' ?_⟩⟩
  · exact hsuper (by rw [hinherits, hp]; rfl)
  · rw [hparent, hp]
    rfl

/-- Everywhere else nothing is inherited. -/
theorem finds_or (h : M.At H running ctx) :
    (∃ (f : Closure) (c : Class) (i : Instance) (d : Nat),
      f.MethodOf M.frames c i ∧ M.Finds ctx c i d) ∨ ctx.inherits = false := by
  cases h.around with
  | outside hbare => exact .inr (h.current.inherits_of_bare h.proper hbare)
  | inside hf hencloses =>
    cases hf.known with
    | method hmethod _ hencloses' =>
      obtain ⟨d, hfinds⟩ := h.finds hmethod (hencloses'.trans hencloses)
      exact .inl ⟨_, _, _, d, hmethod, hfinds⟩
    | plain _ _ hbare _ hencloses' =>
      exact .inr (h.current.inherits_of_bare h.proper ((hencloses'.trans hencloses).bare hbare))

end Machine.At

end Lox
