import Lox.Proofs.Lexical.Machine
import Lox.Proofs.Scoping.Judgement

/-!
# Where the variables are

In a running program a local variable is a name in a frame; in the lexical semantics it is a
location. A placement says which location stands for which name of which frame. A context tells the
two apart that matter at a place of the program: of all names that the frames around it bind by now,
only those that the context lists were in scope there. So the names in scope are determined by the
placement, the context and the chain of frames, and they do not change when a frame gets more names
afterwards.
-/

namespace Lox

/-- Whether a scope settles what a name means, so that scopes further out do not matter. A class
without a superclass settles that there is no `super`. -/
def Layer.settles : Layer → String → Bool
  | names xs, x => decide (x ∈ xs)
  | self, x => decide (x = "this")
  | parent _, x => decide (x = "super")

/-- Only `super` can be settled without being bound. -/
theorem Layer.settles_eq_binds {x : String} (hx : x ≠ "super") (layer : Layer) :
    layer.settles x = layer.binds x := by
  cases layer with
  | names xs => rfl
  | self => rfl
  | parent inherits => simp [settles, binds, hx]

/-- A context in which only ordinary names are declared, and `this` stands right inside of
`super`. -/
inductive Context.Proper : Context → Prop
  | outside : Proper []
  | names {xs : List String} {ctx : Context} :
      (∀ x ∈ xs, Ordinary x) → Proper ctx → Proper (.names xs :: ctx)
  | method {inherits : Bool} {ctx : Context} :
      Proper ctx → Proper (.self :: .parent inherits :: ctx)

theorem Context.Proper.declare {ctx : Context} {x : String} (h : ctx.Proper) (hx : Ordinary x) :
    (ctx.declare x).Proper := by
  cases h with
  | outside => exact .outside
  | names hxs h => exact .names (List.forall_mem_cons.mpr ⟨hx, hxs⟩) h
  | method h => exact .method h

namespace Lexical

/-- The locations that stand for the names of frames. -/
abbrev Placement := RecordId → String → Option Location

namespace Placement

/-- Gives a name of a frame a location. -/
def place (β : Placement) (id : RecordId) (x : String) (l : Location) : Placement :=
  fun id' x' ↦ if id' = id ∧ x' = x then some l else β id' x'

/-- The names in scope at a place of the program. -/
def names (β : Placement) : Context → Environment → String → Option Location
  | layer :: ctx, id :: env, x =>
    if layer.settles x then (if layer.binds x then β id x else none) else names β ctx env x
  | _, _, _ => none

/-- What is in scope for a statement. -/
def scope (β : Placement) (ctx : Context) (env : Environment) : Scope :=
  ⟨!ctx.isEmpty, β.names ctx env⟩

/-- A placement that knows more locations. -/
def Within (β β' : Placement) : Prop := ∀ ⦃id x l⦄, β id x = some l → β' id x = some l

theorem Within.refl (β : Placement) : β.Within β := fun _ _ _ h ↦ h

theorem Within.trans {β β₁ β' : Placement} (h : β.Within β₁) (h' : β₁.Within β') : β.Within β' :=
  fun _ _ _ hl ↦ h' (h hl)

theorem place_self (β : Placement) (id : RecordId) (x : String) (l : Location) :
    β.place id x l id x = some l := if_pos ⟨rfl, rfl⟩

theorem place_of_ne {β : Placement} {id id' : RecordId} {x x' : String} {l : Location}
    (h : ¬ (id' = id ∧ x' = x)) : β.place id x l id' x' = β id' x' := if_neg h

theorem within_place {β : Placement} {id : RecordId} {x : String} {l : Location}
    (h : β id x = none) : β.Within (β.place id x l) := by
  intro id' x' l' hl'
  rw [place_of_ne]
  · exact hl'
  · rintro ⟨rfl, rfl⟩
    rw [h] at hl'
    cases hl'

end Placement

/-- The frames around a place bind the names that its context lists. -/
inductive Placed (β : Placement) : Context → Environment → Prop
  | outside : Placed β [] Lox.Machine.globals
  | layer {layer : Layer} {ctx : Context} {id : RecordId} {env : Environment} :
      (∀ x, layer.binds x = true → (β id x).isSome) → Placed β ctx env →
      Placed β (layer :: ctx) (id :: env)

namespace Placed

variable {β β' : Placement} {ctx : Context} {env : Environment} {x : String} {d : Nat}

theorem mono (h : Placed β ctx env) (hβ : β.Within β') : Placed β' ctx env := by
  induction h with
  | outside => exact .outside
  | layer hbinds _ ih =>
    refine .layer (fun x hx ↦ ?_) ih
    obtain ⟨l, hl⟩ := Option.isSome_iff_exists.mp (hbinds x hx)
    rw [hβ hl]
    rfl

/-- What is in scope at a place does not depend on what is placed later. -/
theorem names_eq (h : Placed β ctx env) (hβ : β.Within β') :
    β'.names ctx env = β.names ctx env := by
  induction h with
  | outside => rfl
  | @layer layer _ id _ hbinds _ ih =>
    funext x
    rw [Placement.names, Placement.names, ih]
    cases hx : layer.binds x with
    | false => simp only [Bool.false_eq_true, if_false]
    | true =>
      obtain ⟨l, hl⟩ := Option.isSome_iff_exists.mp (hbinds x hx)
      rw [hl, hβ hl]

theorem scope_eq (h : Placed β ctx env) (hβ : β.Within β') :
    β'.scope ctx env = β.scope ctx env := by
  rw [Placement.scope, Placement.scope, h.names_eq hβ]

theorem exists_distance {layer : Layer} (h : Context.distance? (layer :: ctx) x = some d)
    (hx : layer.binds x = false) : ∃ d', ctx.distance? x = some d' ∧ d = d' + 1 := by
  rw [Context.distance?_cons, hx] at h
  obtain ⟨d', hd', rfl⟩ := Option.map_eq_some_iff.mp h
  exact ⟨d', hd', rfl⟩

theorem distance?_of_binds {layer : Layer} (h : Context.distance? (layer :: ctx) x = some d)
    (hx : layer.binds x = true) : d = 0 := by
  rw [Context.distance?_cons, hx] at h
  exact (Option.some.inj h).symm

/-- At the distance to a name there is a frame that binds it, to the variable in scope. -/
theorem exists_frame (h : Placed β ctx env) (hx : x ≠ "super") (hd : ctx.distance? x = some d) :
    ∃ id rest l, env.drop d = id :: rest ∧ β id x = some l ∧ β.names ctx env x = some l := by
  induction h generalizing d with
  | outside => cases hd
  | @layer layer _ id env hbinds _ ih =>
    rw [Placement.names, Layer.settles_eq_binds hx]
    cases hlayer : layer.binds x with
    | true =>
      rw [distance?_of_binds hd hlayer]
      obtain ⟨l, hl⟩ := Option.isSome_iff_exists.mp (hbinds x hlayer)
      exact ⟨id, env, l, rfl, hl, hl⟩
    | false =>
      obtain ⟨d', hd', rfl⟩ := exists_distance hd hlayer
      exact ih hd'

/-- A name without a distance is not in scope. -/
theorem names_eq_none (h : Placed β ctx env) (hx : x ≠ "super") (hd : ctx.distance? x = none) :
    β.names ctx env x = none := by
  induction h with
  | outside => rfl
  | @layer layer _ _ _ _ _ ih =>
    rw [Context.distance?_cons] at hd
    rw [Placement.names, Layer.settles_eq_binds hx]
    cases hlayer : layer.binds x with
    | true =>
      rw [hlayer] at hd
      cases hd
    | false =>
      rw [hlayer] at hd
      exact ih (Option.map_eq_none_iff.mp hd)

/-- Where nothing is inherited, there is no `super`. -/
theorem names_super_eq_none (h : Placed β ctx env) (hproper : ctx.Proper)
    (hctx : ctx.inherits = false) : β.names ctx env "super" = none := by
  induction hproper generalizing env with
  | outside => cases h; rfl
  | names hxs _ ih =>
    cases h with
    | layer _ h =>
      rw [Placement.names, if_neg]
      · exact ih h hctx
      · exact fun hmem ↦ (hxs _ (of_decide_eq_true hmem)).2 rfl
  | method _ ih =>
    cases h with
    | layer _ h =>
      cases h with
      | layer _ h =>
        obtain rfl : _ = false := hctx
        rfl

/-- Where something is inherited, `super` and `this` are in two frames next to each other. -/
theorem exists_parent (h : Placed β ctx env) (hproper : ctx.Proper) (hctx : ctx.inherits = true) :
    ∃ d self parent rest l l', ctx.distance? "super" = some (d + 1) ∧
      env.drop d = self :: parent :: rest ∧
      β parent "super" = some l ∧ β.names ctx env "super" = some l ∧
      β self "this" = some l' ∧ β.names ctx env "this" = some l' := by
  induction hproper generalizing env with
  | outside => cases hctx
  | @names xs ctx hxs _ ih =>
    cases h with
    | @layer _ _ id env _ h =>
      obtain ⟨d, self, parent, rest, l, l', hd, henv, hl, hsuper, hl', hthis⟩ := ih h hctx
      have hnot : ∀ x, ¬ Ordinary x → (Layer.names xs).binds x = false := fun _ ↦
        Layer.not_binds_of_not_ordinary hxs
      refine ⟨d + 1, self, parent, rest, l, l', ?_, henv, hl, ?_, hl', ?_⟩
      · rw [Context.distance?_cons, hnot "super" fun h ↦ h.2 rfl]
        exact congrArg (Option.map (· + 1)) hd
      · rw [Placement.names, show (Layer.names xs).settles "super" = false from
          hnot "super" fun h ↦ h.2 rfl]
        exact hsuper
      · rw [Placement.names, show (Layer.names xs).settles "this" = false from
          hnot "this" fun h ↦ h.1 rfl]
        exact hthis
  | method _ ih =>
    cases h with
    | @layer _ _ self _ hthis h =>
      cases h with
      | @layer _ _ parent env hsuper h =>
        obtain rfl : _ = true := hctx
        obtain ⟨l, hl⟩ := Option.isSome_iff_exists.mp (hsuper "super" rfl)
        obtain ⟨l', hl'⟩ := Option.isSome_iff_exists.mp (hthis "this" rfl)
        exact ⟨0, self, parent, env, l, l', rfl, rfl, hl, hl, hl', hl'⟩

end Placed

end Lexical

end Lox
