import Lox.Proofs.Identities.Mentions
import Lox.Proofs.Recasting.Resolution
import Lox.Proofs.Scoping.Depth
import Mathlib.Data.List.Nodup

/-!
# The table of distances

The distances that the resolver finds may be kept in one table for all programs, under the
identities of the references that they are found for. The table is written while a program is
walked over, so what has been found for it stays in the table even if the program turns out to be
wrong, or to be nested too deeply.

A walk writes at the identities of its own program only. If none of these is in the table
beforehand, then behind a walk that gets through the table has the right distance for each
reference of the program, and none for those that are left to the globals.
-/

namespace Lox

open Scoping

/-- The distances that have been noted, each for the identity of a reference. -/
abbrev Locals := Nat → Option Nat

namespace Locals

/-- Notes a distance, in the place of one that has been noted for the same reference before. -/
def record (t : Locals) (x : Finding) : Locals :=
  match x.reference.distance with
  | none => t
  | some key => Function.update t key (some x.distance)

/-- Notes what a walk has found, in order. -/
def recordAll (t : Locals) (findings : List Finding) : Locals := findings.foldl record t

/-- The distance that belongs to what the slot of a reference holds. -/
def read (t : Locals) (slot : Option Nat) : Option Nat := slot.bind t

/-- There is nothing in the table from a number on. -/
def EmptyFrom (t : Locals) (bound : Nat) : Prop := ∀ key, bound ≤ key → t key = none

variable {t : Locals} {findings : List Finding} {key : Nat}

theorem record_of_ne {x : Finding} (h : x.reference.distance ≠ some key) :
    t.record x key = t key := by
  rw [record]
  cases hslot : x.reference.distance with
  | none => rfl
  | some other => exact Function.update_of_ne (fun heq ↦ h (by rw [hslot, heq])) _ _

/-- Where nothing is written, the table stays what it is. -/
theorem recordAll_of_ne (h : ∀ x ∈ findings, x.reference.distance ≠ some key) :
    t.recordAll findings key = t key := by
  induction findings generalizing t with
  | nil => rfl
  | cons x findings ih =>
    rw [List.forall_mem_cons] at h
    exact (ih h.2).trans (record_of_ne h.1)

theorem record_self {x : Finding} (h : x.reference.distance = some key) :
    t.record x key = some x.distance := by
  rw [record, h]
  exact Function.update_self _ _ _

theorem recordAll_append (t : Locals) (findings later : List Finding) :
    t.recordAll (findings ++ later) = (t.recordAll findings).recordAll later :=
  List.foldl_append

/-- What is found is found for a reference that makes a mention. -/
theorem slot_mem_of_finding {mentions : List Mention} {x : Finding}
    (hx : x ∈ mentions.filterMap Mention.finding?) :
    x.reference.distance ∈ mentions.filterMap Mention.slot? := by
  obtain ⟨m, hm, hfinding⟩ := List.mem_filterMap.mp hx
  refine List.mem_filterMap.mpr ⟨m, hm, ?_⟩
  rw [Mention.slot?, Mention.reference_finding? hfinding, Option.map_some]

/-- What is found for mentions with different identities is in the table afterwards, if nothing has
been there under these before. -/
theorem isReadBy_recordAll {mentions : List Mention}
    (hnodup : (mentions.filterMap Mention.slot?).Nodup)
    (hfresh : ∀ slot ∈ mentions.filterMap Mention.slot?, ∃ key, slot = some key ∧ t key = none) :
    ∀ m ∈ mentions, m.IsReadBy (t.recordAll (mentions.filterMap Mention.finding?)).read := by
  intro m hm r hr
  have hslot : m.slot? = some r.distance := congrArg (Option.map Reference.distance) hr
  obtain ⟨key, hkey, hnone⟩ := hfresh r.distance (List.mem_filterMap.mpr ⟨m, hm, hslot⟩)
  obtain ⟨before, after, rfl⟩ := List.append_of_mem hm
  -- Neither before nor after this mention is anything noted for its reference.
  rw [List.filterMap_append, List.filterMap_cons_some hslot, hkey, List.nodup_middle,
    List.nodup_cons, List.mem_append, not_or] at hnodup
  have hbefore : ∀ x ∈ before.filterMap Mention.finding?, x.reference.distance ≠ some key :=
    fun x hx heq ↦ hnodup.1.1 (heq ▸ slot_mem_of_finding hx)
  have hafter : ∀ x ∈ after.filterMap Mention.finding?, x.reference.distance ≠ some key :=
    fun x hx heq ↦ hnodup.1.2 (heq ▸ slot_mem_of_finding hx)
  rw [read, hkey, Option.bind_some, List.filterMap_append, recordAll_append]
  cases hfinding : m.finding? with
  | none =>
    rw [List.filterMap_cons_none hfinding, recordAll_of_ne hafter, recordAll_of_ne hbefore, hnone,
      Option.map_none]
  | some x =>
    have hx : x.reference = r :=
      Option.some.inj ((Mention.reference_finding? hfinding).symm.trans hr)
    rw [List.filterMap_cons_some hfinding, recordAll, List.foldl_cons, ← recordAll,
      recordAll_of_ne hafter, record_self (hx ▸ hkey), Option.map_some]

/-- Behind a walk over a program with new identities the table has the right distances for it. -/
theorem EmptyFrom.isReadBy {mentions : List Mention} {k uses : Nat} (ht : t.EmptyFrom k)
    (hslots : mentions.filterMap Mention.slot? = identities k uses) :
    ∀ m ∈ mentions, m.IsReadBy (t.recordAll (mentions.filterMap Mention.finding?)).read := by
  refine isReadBy_recordAll ?_ fun slot hslot ↦ ?_
  · rw [hslots]
    exact List.Nodup.map (fun _ _ ↦ Option.some.inj) List.nodup_range'
  · rw [hslots] at hslot
    obtain ⟨key, hkey, rfl⟩ := List.mem_map.mp hslot
    exact ⟨key, rfl, ht key (List.mem_range'_1.mp hkey).1⟩

end Locals

end Lox
