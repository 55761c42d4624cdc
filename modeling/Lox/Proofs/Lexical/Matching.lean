import Lox.Proofs.Lexical.Correspondence

/-!
# Machines that correspond

The state of a running program corresponds to a state of the lexical semantics, along a placement,
if the frames bind exactly the names that have a location, to corresponding values, and everything
else is the same on both sides. No two names share a location, so assigning to one variable cannot
be seen at another one.

What is needed of the frames that are not looked at by name, namely that `this` is bound to an
instance and `super` to a class, is a part of the correspondence.
-/

namespace Lox

namespace Lexical

open Lox.Machine (builtinFrame globalFrame)

/-- The values that the names which the language itself declares are bound to. -/
structure Suits (x : String) (V : Lox.Value) : Prop where
  self : x = "this" → ∃ i, V = .instance i
  parent : x = "super" → ∃ C, V = .class C

theorem suits_of_ordinary {x : String} {V : Lox.Value} (h : Ordinary x) : Suits x V :=
  ⟨fun hx ↦ absurd hx h.1, fun hx ↦ absurd hx h.2⟩

/-- The state of a running program corresponds to a state of the lexical semantics. -/
structure Matches (excused : String → Prop) (β : Placement) (M : Lox.Machine) (μ : Machine) :
    Prop where
  frames : 2 ≤ M.frames.next
  builtins : (M.frames.record builtinFrame).Related (ValueMatches excused β) μ.builtins
  globals : (M.frames.record globalFrame).Related (ValueMatches excused β) μ.globals
  located : ∀ ⦃id x l⦄, β id x = some l → 2 ≤ id ∧ ∃ V v, (M.frames.record id).get? x = some V ∧
    μ.cells[l]? = some v ∧ ValueMatches excused β V v
  unlocated : ∀ ⦃id x⦄, 2 ≤ id → β id x = none → (M.frames.record id).get? x = none
  apart : ∀ ⦃id x id' x' l⦄, β id x = some l → β id' x' = some l → id = id' ∧ x = x'
  suits : ∀ ⦃id x V⦄, 2 ≤ id → (M.frames.record id).get? x = some V → Suits x V
  objectsNext : M.objects.next = μ.objects.next
  objects : ∀ id, (M.objects.record id).Related (ValueMatches excused β) (μ.objects.record id)
  nextId : M.nextId = μ.nextId
  steps : M.steps = μ.steps
  readings : M.readings = μ.readings
  printed : M.printed = μ.printed

namespace Matches

variable {excused : String → Prop} {β : Placement} {M : Lox.Machine} {μ : Machine}
  {id : RecordId} {x : String} {l : Location} {V : Lox.Value} {v : Value}

theorem lt_next (h : Matches excused β M μ) (hl : β id x = some l) : id < M.frames.next := by
  obtain ⟨-, V, v, hV, -⟩ := h.located hl
  exact Store.lt_next_of_get? hV

theorem lt_size (h : Matches excused β M μ) (hl : β id x = some l) : l < μ.cells.size := by
  obtain ⟨-, V, v, -, hv, -⟩ := h.located hl
  exact (Array.getElem?_eq_some_iff.mp hv).1

theorem excuse {excused' : String → Prop} (h : Matches excused β M μ)
    (hexcused : ∀ x, excused x → excused' x) : Matches excused' β M μ :=
  { h with
    builtins := h.builtins.mono fun _ _ hV ↦ hV.excuse hexcused
    globals := h.globals.mono fun _ _ hV ↦ hV.excuse hexcused
    located := fun _ _ _ hl ↦ by
      obtain ⟨hid, V, v, hV, hv, hmatches⟩ := h.located hl
      exact ⟨hid, V, v, hV, hv, hmatches.excuse hexcused⟩
    objects := fun id ↦ (h.objects id).mono fun _ _ hV ↦ hV.excuse hexcused }

/-- A new frame without names. -/
theorem push (h : Matches excused β M μ) :
    Matches excused β { M with frames := M.frames.push .empty } μ := by
  have hrecord : ∀ {id x}, ((M.frames.push .empty).record id).get? x
      = (M.frames.record id).get? x := by
    intro id x
    rw [Store.record_push]
    split
    · rename_i hid
      rw [hid, Store.record_of_le (Nat.le_refl _)]
    · rfl
  have hold : ∀ id < 2, (M.frames.push .empty).record id = M.frames.record id := fun id hid ↦
    Store.record_push_of_lt (Nat.lt_of_lt_of_le hid h.frames) _
  exact { h with
    frames := by
      rw [Store.next_push]
      exact Nat.le_succ_of_le h.frames
    builtins := (hold builtinFrame (by decide)).symm ▸ h.builtins
    globals := (hold globalFrame (by decide)).symm ▸ h.globals
    located := fun id x l hl ↦ by rw [hrecord]; exact h.located hl
    unlocated := fun id x hid hl ↦ hrecord.trans (h.unlocated hid hl)
    suits := fun id x V hid hV ↦ h.suits hid (hrecord.symm.trans hV) }

/-- What is bound to a name of the language itself still suits it behind another binding. -/
theorem suits_bind (h : Matches excused β M μ) (hlt : id < M.frames.next) (hsuits : Suits x V)
    ⦃id' : RecordId⦄ ⦃y : String⦄ ⦃W : Lox.Value⦄ (hid : 2 ≤ id')
    (hW : ((M.frames.bind id x V).record id').get? y = some W) : Suits y W := by
  rw [Store.get?_record_bind hlt] at hW
  split at hW
  · rename_i heq
    obtain ⟨-, rfl⟩ := heq
    cases hW
    exact hsuits
  · exact h.suits hid hW

/-- A new name in a frame, with a new location. The value may refer to that name already. -/
theorem define (h : Matches excused β M μ) (hid : 2 ≤ id) (hlt : id < M.frames.next)
    (hx : β id x = none) (hV : ValueMatches excused (β.place id x μ.cells.size) V v)
    (hsuits : Suits x V) :
    Matches excused (β.place id x μ.cells.size) { M with frames := M.frames.bind id x V }
      { μ with cells := μ.cells.push v } := by
  have hβ := Placement.within_place (l := μ.cells.size) hx
  have hold : ∀ id' < 2, (M.frames.bind id x V).record id' = M.frames.record id' :=
    fun id' hid' ↦ Store.record_bind_of_ne (Nat.ne_of_lt (Nat.lt_of_lt_of_le hid' hid)) _ _ _
  have hmono : ∀ {W w}, ValueMatches excused β W w →
      ValueMatches excused (β.place id x μ.cells.size) W w := fun hW ↦ hW.mono hβ
  exact { h with
    frames := by rw [Store.next_bind]; exact h.frames
    builtins := (hold builtinFrame (by decide)).symm ▸ h.builtins.mono fun _ _ ↦ hmono
    globals := (hold globalFrame (by decide)).symm ▸ h.globals.mono fun _ _ ↦ hmono
    objects := fun id ↦ (h.objects id).mono fun _ _ ↦ hmono
    located := by
      intro id' x' l' hl'
      rw [Store.get?_record_bind hlt]
      by_cases heq : id' = id ∧ x' = x
      · obtain ⟨rfl, rfl⟩ := heq
        obtain rfl : μ.cells.size = l' := Option.some.inj ((Placement.place_self ..).symm.trans hl')
        exact ⟨hid, V, v, if_pos ⟨rfl, rfl⟩, Array.getElem?_push_size, hV⟩
      · rw [Placement.place_of_ne heq] at hl'
        obtain ⟨hid', W, w, hW, hw, hmatches⟩ := h.located hl'
        rw [if_neg heq]
        refine ⟨hid', W, w, hW, ?_, hmono hmatches⟩
        rw [Array.getElem?_push, if_neg (Nat.ne_of_lt (h.lt_size hl'))]
        exact hw
    unlocated := by
      intro id' x' hid' hl'
      rw [Store.get?_record_bind hlt]
      by_cases heq : id' = id ∧ x' = x
      · obtain ⟨rfl, rfl⟩ := heq
        rw [Placement.place_self] at hl'
        cases hl'
      · rw [if_neg heq]
        rw [Placement.place_of_ne heq] at hl'
        exact h.unlocated hid' hl'
    apart := by
      -- The new location is behind all others.
      intro id₁ x₁ id₂ x₂ l' h₁ h₂
      by_cases heq₁ : id₁ = id ∧ x₁ = x <;> by_cases heq₂ : id₂ = id ∧ x₂ = x
      · exact ⟨heq₁.1.trans heq₂.1.symm, heq₁.2.trans heq₂.2.symm⟩
      · rw [Placement.place, if_pos heq₁] at h₁
        rw [Placement.place_of_ne heq₂] at h₂
        cases h₁
        exact absurd (h.lt_size h₂) (Nat.lt_irrefl _)
      · rw [Placement.place_of_ne heq₁] at h₁
        rw [Placement.place, if_pos heq₂] at h₂
        cases h₂
        exact absurd (h.lt_size h₁) (Nat.lt_irrefl _)
      · rw [Placement.place_of_ne heq₁] at h₁
        rw [Placement.place_of_ne heq₂] at h₂
        exact h.apart h₁ h₂
    suits := h.suits_bind hlt hsuits }

/-- A variable gets another value. -/
theorem assign (h : Matches excused β M μ) (hl : β id x = some l)
    (hV : ValueMatches excused β V v) (hsuits : Suits x V) :
    Matches excused β { M with frames := M.frames.bind id x V }
      { μ with cells := μ.cells.setIfInBounds l v } := by
  have hid : 2 ≤ id := (h.located hl).1
  have hlt : id < M.frames.next := h.lt_next hl
  have hold : ∀ id' < 2, (M.frames.bind id x V).record id' = M.frames.record id' :=
    fun id' hid' ↦ Store.record_bind_of_ne (Nat.ne_of_lt (Nat.lt_of_lt_of_le hid' hid)) _ _ _
  exact { h with
    frames := by rw [Store.next_bind]; exact h.frames
    builtins := (hold builtinFrame (by decide)).symm ▸ h.builtins
    globals := (hold globalFrame (by decide)).symm ▸ h.globals
    located := by
      intro id' x' l' hl'
      rw [Store.get?_record_bind hlt]
      by_cases heq : id' = id ∧ x' = x
      · obtain ⟨rfl, rfl⟩ := heq
        obtain rfl : l = l' := Option.some.inj (hl.symm.trans hl')
        exact ⟨hid, V, v, if_pos ⟨rfl, rfl⟩, Array.getElem?_setIfInBounds_self_of_lt (h.lt_size hl),
          hV⟩
      · obtain ⟨hid', W, w, hW, hw, hmatches⟩ := h.located hl'
        rw [if_neg heq]
        refine ⟨hid', W, w, hW, ?_, hmatches⟩
        rw [Array.getElem?_setIfInBounds_ne]
        · exact hw
        · rintro rfl
          exact heq (h.apart hl' hl)
    unlocated := by
      intro id' x' hid' hl'
      rw [Store.get?_record_bind hlt, if_neg]
      · exact h.unlocated hid' hl'
      · rintro ⟨rfl, rfl⟩
        rw [hl] at hl'
        cases hl'
    suits := h.suits_bind hlt hsuits }

/-- What is bound in the two outer frames does not matter to the others. -/
theorem frames_of_outer (h : Matches excused β M μ) {outer : RecordId} (houter : outer < 2)
    (x : String) (V : Lox.Value) {globals builtins : Bindings Value}
    (hglobals : ((M.frames.bind outer x V).record globalFrame).Related
      (ValueMatches excused β) globals)
    (hbuiltins : ((M.frames.bind outer x V).record builtinFrame).Related (ValueMatches excused β)
      builtins) :
    Matches excused β { M with frames := M.frames.bind outer x V }
      { μ with globals, builtins } := by
  have hlocal : ∀ id, 2 ≤ id → (M.frames.bind outer x V).record id = M.frames.record id :=
    fun id hid ↦ Store.record_bind_of_ne (Nat.ne_of_gt (Nat.lt_of_lt_of_le houter hid)) _ _ _
  exact { h with
    frames := by rw [Store.next_bind]; exact h.frames
    globals := hglobals
    builtins := hbuiltins
    located := fun id x' l' hl' ↦ by
      rw [hlocal id (h.located hl').1]
      exact h.located hl'
    unlocated := fun id x' hid hl' ↦ by
      rw [hlocal id hid]
      exact h.unlocated hid hl'
    suits := fun id x' W hid hW ↦ by
      rw [hlocal id hid] at hW
      exact h.suits hid hW }

/-- A global is bound. -/
theorem bindGlobal (h : Matches excused β M μ) (x : String) (hV : ValueMatches excused β V v) :
    Matches excused β { M with frames := M.frames.bind globalFrame x V }
      { μ with globals := μ.globals.insert x v } := by
  refine h.frames_of_outer (by decide) x V ?_ ?_
  · rw [Store.record_bind_self (Nat.lt_of_lt_of_le (by decide) h.frames)]
    exact h.globals.insert x hV
  · rw [Store.record_bind_of_ne (by decide)]
    exact h.builtins

/-- A built-in function is replaced. -/
theorem bindBuiltin (h : Matches excused β M μ) (x : String) (hV : ValueMatches excused β V v) :
    Matches excused β { M with frames := M.frames.bind builtinFrame x V }
      { μ with builtins := μ.builtins.insert x v } := by
  refine h.frames_of_outer (by decide) x V ?_ ?_
  · rw [Store.record_bind_of_ne (by decide)]
    exact h.globals
  · rw [Store.record_bind_self (Nat.lt_of_lt_of_le (by decide) h.frames)]
    exact h.builtins.insert x hV

/-- A new instance. -/
theorem pushObject (h : Matches excused β M μ) :
    Matches excused β { M with objects := M.objects.push .empty }
      { μ with objects := μ.objects.push .empty } :=
  { h with
    objectsNext := by rw [Store.next_push, Store.next_push, h.objectsNext]
    objects := fun id ↦ by
      rw [Store.record_push, Store.record_push, h.objectsNext]
      split
      · exact Bindings.related_empty
      · exact h.objects id }

/-- A field is bound. -/
theorem bindField (h : Matches excused β M μ) (id : RecordId) (x : String)
    (hV : ValueMatches excused β V v) :
    Matches excused β { M with objects := M.objects.bind id x V }
      { μ with objects := μ.objects.bind id x v } :=
  { h with
    objectsNext := by rw [Store.next_bind, Store.next_bind, h.objectsNext]
    objects := fun id' ↦ by
      by_cases hid : id' = id
      · subst hid
        by_cases hlt : id' < M.objects.next
        · rw [Store.record_bind_self hlt, Store.record_bind_self (h.objectsNext ▸ hlt)]
          exact (h.objects id').insert x hV
        · have hle : M.objects.next ≤ id' := Nat.le_of_not_lt hlt
          rw [Store.record_bind_of_le hle, Store.record_bind_of_le (h.objectsNext ▸ hle)]
          exact Bindings.related_empty
      · rw [Store.record_bind_of_ne hid, Store.record_bind_of_ne hid]
        exact h.objects id' }

end Matches

end Lexical

end Lox
