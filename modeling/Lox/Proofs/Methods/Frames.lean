import Lox.Proofs.Environments.Links
import Lox.Proofs.Lexical.Placement

/-!
# Frames of methods

No program can declare `this` or `super`, or assign to them. They are bound in two kinds of frames
only: binding a method makes a frame for `this`, and declaring a class makes one for `super`. So
once a frame is made it is settled whether it binds them and to what, and whether it does is what
the contexts say from which the distances in a tree come.
-/

namespace Lox

theorem not_ordinary_this : ¬ Ordinary "this" := fun h ↦ h.1 rfl

theorem not_ordinary_super : ¬ Ordinary "super" := fun h ↦ h.2 rfl

namespace Store

variable {s s' s'' : Store Value} {ctx : Context} {env outer : Environment} {layer : Layer}

/-! ## Frames from one moment to a later one -/

/-- The frames of one moment and those of a later one. There may be more frames then, and the
frames may bind more names, but they bind `this` and `super` as before. -/
structure Precedes (s s' : Store Value) : Prop where
  next : s.next ≤ s'.next
  get? : ∀ id < s.next, ∀ x, ¬ Ordinary x → (s'.record id).get? x = (s.record id).get? x

theorem Precedes.refl (s : Store Value) : s.Precedes s := ⟨Nat.le_refl _, fun _ _ _ _ ↦ rfl⟩

theorem Precedes.trans (h : s.Precedes s') (h' : s'.Precedes s'') : s.Precedes s'' :=
  ⟨Nat.le_trans h.next h'.next, fun id hid x hx ↦
    (h'.get? id (Nat.lt_of_lt_of_le hid h.next) x hx).trans (h.get? id hid x hx)⟩

theorem precedes_push (s : Store Value) (b : Bindings Value) : s.Precedes (s.push b) := by
  refine ⟨by rw [next_push]; exact Nat.le_succ _, fun id hid x _ ↦ ?_⟩
  rw [record_push_of_lt hid]

theorem precedes_bind (s : Store Value) (id : RecordId) {x : String} (hx : Ordinary x) (v : Value) :
    s.Precedes (s.bind id x v) := by
  refine ⟨Nat.le_of_eq (next_bind ..).symm, fun other hother y hy ↦ ?_⟩
  by_cases hid : other = id
  · have hne : y ≠ x := fun heq ↦ hy (heq ▸ hx)
    rw [← hid, record_bind_self hother, Bindings.get?_insert_of_ne hne]
  · rw [record_bind_of_ne hid]

/-! ## Chains of frames -/

/-- No frame of a chain binds `this`. -/
def Bare (s : Store Value) (env : Environment) : Prop :=
  ∀ id ∈ env, id < s.next ∧ (s.record id).get? "this" = none

theorem Bare.mono (h : s.Bare env) (hs : s.Precedes s') : s'.Bare env := by
  intro id hid
  obtain ⟨hlt, hthis⟩ := h id hid
  exact ⟨Nat.lt_of_lt_of_le hlt hs.next, (hs.get? id hlt _ not_ordinary_this).trans hthis⟩

theorem Bare.push (h : s.Bare env) {b : Bindings Value} (hb : b.get? "this" = none) :
    (s.push b).Bare (s.next :: env) := by
  refine List.forall_mem_cons.mpr ⟨⟨?_, ?_⟩, h.mono (precedes_push s b)⟩
  · rw [next_push]
    exact Nat.lt_succ_self _
  · rw [record_push_self, hb]

/-- A chain of frames fits a context: its frames bind `this` and `super` where the context says. -/
inductive Fits (s : Store Value) : Context → Environment → Prop
  | outside : s.Bare Machine.globals → Fits s [] Machine.globals
  | layer {layer : Layer} {ctx : Context} {id : RecordId} {env : Environment} : id < s.next →
      (∀ x, ¬ Ordinary x → ((s.record id).get? x).isSome = layer.binds x) → Fits s ctx env →
      Fits s (layer :: ctx) (id :: env)

theorem Fits.mono (h : s.Fits ctx env) (hs : s.Precedes s') : s'.Fits ctx env := by
  induction h with
  | outside hglobals => exact .outside (hglobals.mono hs)
  | layer hlt hbinds _ ih =>
    exact .layer (Nat.lt_of_lt_of_le hlt hs.next)
      (fun x hx ↦ by rw [hs.get? _ hlt x hx, hbinds x hx]) ih

theorem Fits.lt_next (h : s.Fits ctx env) : ∀ id ∈ env, id < s.next := by
  induction h with
  | outside hglobals => exact fun id hid ↦ (hglobals id hid).1
  | layer hlt _ _ ih => exact List.forall_mem_cons.mpr ⟨hlt, ih⟩

theorem Fits.exists_cons (h : s.Fits ctx env) : ∃ frame outer, env = frame :: outer := by
  cases h <;> exact ⟨_, _, rfl⟩

theorem Fits.push (h : s.Fits ctx env) {b : Bindings Value}
    (hb : ∀ x, ¬ Ordinary x → (b.get? x).isSome = layer.binds x) :
    (s.push b).Fits (layer :: ctx) (s.next :: env) := by
  refine .layer (by rw [next_push]; exact Nat.lt_succ_self _) (fun x hx ↦ ?_)
    (h.mono (precedes_push s b))
  rw [record_push_self, hb x hx]

/-- Names that a program can declare do not matter. -/
theorem Fits.declare (h : s.Fits ctx env) {x : String} (hx : Ordinary x) :
    s.Fits (ctx.declare x) env := by
  cases h with
  | outside hglobals => exact .outside hglobals
  | @layer layer _ _ _ hlt hbinds h =>
    cases layer with
    | names xs =>
      refine .layer hlt (fun y hy ↦ ?_) h
      have hne : y ≠ x := fun heq ↦ hy (heq ▸ hx)
      rw [hbinds y hy]
      simp [Layer.binds, hne]
    | self | parent inherits => exact .layer hlt hbinds h

/-- One environment is around another one, and no frame in between binds `this`. -/
def Encloses (s : Store Value) (outer env : Environment) : Prop :=
  ∃ frames, env = frames ++ outer ∧ s.Bare frames

theorem Encloses.refl (s : Store Value) (env : Environment) : s.Encloses env env :=
  ⟨[], rfl, List.forall_mem_nil _⟩

theorem Encloses.mono (h : s.Encloses outer env) (hs : s.Precedes s') : s'.Encloses outer env := by
  obtain ⟨frames, rfl, hframes⟩ := h
  exact ⟨frames, rfl, hframes.mono hs⟩

theorem Encloses.trans {inner : Environment} (h : s.Encloses outer env)
    (h' : s.Encloses env inner) : s.Encloses outer inner := by
  obtain ⟨frames, rfl, hframes⟩ := h
  obtain ⟨frames', rfl, hframes'⟩ := h'
  refine ⟨frames' ++ frames, (List.append_assoc ..).symm, ?_⟩
  exact List.forall_mem_append.mpr ⟨hframes', hframes⟩

theorem Encloses.push (h : s.Encloses outer env) {b : Bindings Value} (hb : b.get? "this" = none) :
    (s.push b).Encloses outer (s.next :: env) := by
  obtain ⟨frames, rfl, hframes⟩ := h
  exact ⟨s.next :: frames, rfl, hframes.push hb⟩

theorem Encloses.bare (h : s.Encloses outer env) (houter : s.Bare outer) : s.Bare env := by
  obtain ⟨frames, rfl, hframes⟩ := h
  exact List.forall_mem_append.mpr ⟨hframes, houter⟩

/-- What is known at a later moment was so before, as far as the frames were there. -/
theorem Encloses.earlier (h : s'.Encloses outer env) (hs : s.Precedes s')
    (hlt : ∀ id ∈ env, id < s.next) : s.Encloses outer env := by
  obtain ⟨frames, rfl, hframes⟩ := h
  refine ⟨frames, rfl, fun id hid ↦ ?_⟩
  have hid' := hlt id (List.mem_append_left _ hid)
  exact ⟨hid', (hs.get? id hid' _ not_ordinary_this).symm.trans (hframes id hid).2⟩

/-! ## Distances -/

/-- Where no frame binds `this`, there is no class around. -/
theorem Fits.inherits_of_bare (h : s.Fits ctx env) (hproper : ctx.Proper) (hbare : s.Bare env) :
    ctx.inherits = false := by
  induction hproper generalizing env with
  | outside => rfl
  | names _ _ ih =>
    cases h with
    | layer _ _ h => exact ih h (List.forall_mem_cons.mp hbare).2
  | method =>
    cases h with
    | layer _ hbinds _ =>
      have hself := hbinds "this" not_ordinary_this
      rw [(List.forall_mem_cons.mp hbare).1.2] at hself
      cases hself

/-- In a chain that fits, the frames outward to the first that binds `this` are the distance to
`this`, and `super` is in the frame behind it or nowhere. -/
theorem Fits.distances (h : s.Fits ctx env) (hproper : ctx.Proper) {frames rest : Environment}
    {self parent : RecordId} (henv : env = frames ++ self :: parent :: rest)
    (hframes : s.Bare frames) (hself : ((s.record self).get? "this").isSome = true) :
    ctx.distance? "this" = some frames.length ∧
      ctx.inherits = ((s.record parent).get? "super").isSome ∧
      (ctx.inherits = true → ctx.distance? "super" = some (frames.length + 1)) := by
  induction hproper generalizing env frames with
  | outside =>
    cases h with
    | outside hglobals =>
      -- The globals do not bind `this` at all.
      have hmem : self ∈ Machine.globals := by
        rw [henv]
        exact List.mem_append_right _ List.mem_cons_self
      rw [(hglobals self hmem).2] at hself
      cases hself
  | @names xs ctx hxs _ ih =>
    cases h with
    | @layer _ _ id env _ hbinds h =>
      have hthis := Layer.not_binds_of_not_ordinary hxs not_ordinary_this
      have hsuper := Layer.not_binds_of_not_ordinary hxs not_ordinary_super
      cases frames with
      | nil =>
        obtain ⟨rfl, -⟩ := List.cons.inj henv
        rw [hbinds "this" not_ordinary_this, hthis] at hself
        cases hself
      | cons frame frames =>
        obtain ⟨-, rfl⟩ := List.cons.inj henv
        obtain ⟨hdistance, hinherits, hparent⟩ := ih h rfl (List.forall_mem_cons.mp hframes).2
        refine ⟨?_, hinherits, fun hctx ↦ ?_⟩
        · rw [Context.distance?_cons, hthis]
          exact congrArg (Option.map (· + 1)) hdistance
        · rw [Context.distance?_cons, hsuper]
          exact congrArg (Option.map (· + 1)) (hparent hctx)
  | @method inherits ctx _ _ =>
    cases h with
    | @layer _ _ id _ _ hbinds h =>
      cases h with
      | @layer _ _ id' env _ hbinds' _ =>
        cases frames with
        | nil =>
          obtain ⟨rfl, heq⟩ := List.cons.inj henv
          obtain ⟨rfl, -⟩ := List.cons.inj heq
          refine ⟨rfl, ?_, fun hctx ↦ ?_⟩
          · rw [hbinds' _ not_ordinary_super]
            exact (Bool.and_true inherits).symm
          · obtain rfl : inherits = true := hctx
            rfl
        | cons frame frames =>
          obtain ⟨rfl, -⟩ := List.cons.inj henv
          have hnone := (List.forall_mem_cons.mp hframes).1.2
          have hsome := hbinds "this" not_ordinary_this
          rw [hnone] at hsome
          cases hsome

end Store

end Lox
