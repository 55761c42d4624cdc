import Lox.Proofs.Environments.Discipline
import Lox.Proofs.Loops.Agreement

/-!
# Machines next to themselves

Between two commands a machine has no additional frames, whatever has run on it. So each of its
frames can be paired with itself, and then the machine is aligned with itself: all chains that it
holds lead through frames that are there, and none of them leads through an additional one.
-/

namespace Lox

/-- Each of the first frames belongs to itself. -/
def Pairing.same (next : Nat) : Pairing := fun id id' ↦ id = id' ∧ id < next

section Values

variable {links : List Environment} {env : Environment}

theorem Along.chains (h : Along links env) :
    Chains (.same links.length) (List.replicate env.length false) env env := by
  induction env with
  | nil => exact .nil
  | cons frame outer ih =>
    exact .common ⟨rfl, (List.getElem?_eq_some_iff.mp h.1).1⟩ (ih h.2)

/-- The methods of a class, none of which is among additional frames. -/
theorem Bindings.related_self {Γ : Padding} (hflat : Γ.IsFlat) (methods : Bindings FunDecl) :
    methods.Related (FunDecl.Pads Γ) methods :=
  List.forall₂_same.mpr fun e _ ↦ ⟨rfl, .refl hflat e.2⟩

theorem Class.aligned_self : ∀ C : Class, AllAlong links C.environments →
    C.Aligned (.same links.length) C
  | ⟨_, _, none, methods, env⟩, h =>
    .plain (h env List.mem_cons_self).chains
      (Bindings.related_self (Padding.isFlat_replicate env.length).common methods)
  | ⟨_, _, some C, methods, env⟩, h =>
    .derived (Class.aligned_self C (allAlong_cons.mp h).2) (h env List.mem_cons_self).chains
      (Bindings.related_self (Padding.isFlat_replicate env.length).common methods)

theorem Value.aligned_self {V : Value} (h : AllAlong links V.environments) :
    V.Aligned (.same links.length) V := by
  cases V with
  | nil => exact .nil
  | bool => exact .bool
  | number => exact .number
  | string => exact .string
  | native => exact .native
  | function F =>
    exact .function ⟨rfl, _, (h F.environment List.mem_cons_self).chains,
      .refl (Padding.isFlat_replicate _) F.declaration⟩
  | «class» C => exact .class (C.aligned_self h)
  | «instance» i => exact .instance (i.class.aligned_self h)

theorem Bindings.aligned_self {b : Bindings Value}
    (h : ∀ x V, b.get? x = some V → AllAlong links V.environments) :
    b.Aligned (.same links.length) b := by
  refine ⟨List.forall₂_same.mpr fun _ _ ↦ ⟨rfl, rfl⟩, fun x ↦ ?_⟩
  cases hx : b.get? x with
  | none => exact .none
  | some V => exact .some (Value.aligned_self (h x V hx))

end Values

/-- A machine between two commands is at the same place as itself. -/
theorem Machine.Linked.meets_self {links : List Environment} {M : Machine} (h : M.Linked links)
    (hcurrent : M.current = globals) : Meets (.same links.length) [false, false] M M := by
  have hchains : Chains (.same links.length) [false, false] M.current M.current := by
    have hchains := h.current.chains
    rw [hcurrent] at hchains ⊢
    exact hchains
  obtain ⟨hglobals, hbuiltins, -⟩ : Along links globals := hcurrent ▸ h.current
  refine ⟨?_, hchains⟩
  exact {
    frames := by
      rintro id _ ⟨rfl, hid⟩
      exact ⟨h.size ▸ hid, h.size ▸ hid, Bindings.aligned_self (h.frames id)⟩
    unique := by
      rintro i _ j _ ⟨rfl, -⟩ ⟨rfl, -⟩
      exact Iff.rfl
    builtins := ⟨rfl, (List.getElem?_eq_some_iff.mp hbuiltins).1⟩
    globals := ⟨rfl, (List.getElem?_eq_some_iff.mp hglobals).1⟩
    objectsNext := rfl
    objects := fun id ↦ Bindings.aligned_self (h.objects id)
    nextId := rfl
    readings := rfl
    printed := rfl }

end Lox
