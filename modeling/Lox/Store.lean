import Lox.Bindings

/-!
# Stores

A store holds numbered records, each of which binds names. Records are added and their bindings
change, but no record is ever removed, so a number stays good forever.
-/

namespace Lox

/-- The number of a record in its store. -/
abbrev RecordId := Nat

/-- A row of records. -/
structure Store (α : Type) where
  records : Array (Bindings α)

namespace Store

variable {α : Type}

def empty : Store α := ⟨#[]⟩

/-- A record. One that does not exist binds nothing. -/
def record (s : Store α) (id : RecordId) : Bindings α := s.records.getD id .empty

/-- The number that the next record is going to have. -/
def next (s : Store α) : RecordId := s.records.size

/-- Adds a record. -/
def push (s : Store α) (b : Bindings α) : Store α := ⟨s.records.push b⟩

/-- Binds a name in one record. -/
def bind (s : Store α) (id : RecordId) (name : String) (a : α) : Store α :=
  ⟨s.records.modify id fun b ↦ b.insert name a⟩

/-! ## What the operations do to a record -/

@[simp] theorem next_push (s : Store α) (b : Bindings α) : (s.push b).next = s.next + 1 := by
  simp [next, push]

@[simp] theorem next_bind (s : Store α) (id : RecordId) (name : String) (a : α) :
    (s.bind id name a).next = s.next := by
  simp [bind, next]

@[simp] theorem record_push_self (s : Store α) (b : Bindings α) :
    (s.push b).record s.next = b := by
  simp [record, push, next]

theorem record_push_of_lt {s : Store α} {id : RecordId} (h : id < s.next) (b : Bindings α) :
    (s.push b).record id = s.record id := by
  simp only [next] at h
  simp [record, push, Array.getElem?_push, h, Nat.ne_of_lt h]

theorem record_bind_self {s : Store α} {id : RecordId} (h : id < s.next) (name : String) (a : α) :
    (s.bind id name a).record id = (s.record id).insert name a := by
  simp only [next] at h
  simp [record, bind, h, Array.getElem_modify]

theorem record_bind_of_ne {id other : RecordId} (h : other ≠ id) (s : Store α) (name : String)
    (a : α) : (s.bind id name a).record other = s.record other := by
  simp [record, bind, Array.getElem?_modify, Ne.symm h]

theorem record_of_le {s : Store α} {id : RecordId} (h : s.next ≤ id) : s.record id = .empty := by
  simp only [next] at h
  simp [record, Array.getElem?_eq_none h]

theorem record_push (s : Store α) (b : Bindings α) (id : RecordId) :
    (s.push b).record id = if id = s.next then b else s.record id := by
  rcases Nat.lt_trichotomy id s.next with h | rfl | h
  · rw [record_push_of_lt h, if_neg (Nat.ne_of_lt h)]
  · rw [record_push_self, if_pos rfl]
  · rw [if_neg (Nat.ne_of_gt h), record_of_le (Nat.le_of_lt h), record_of_le]
    rw [next_push]
    exact h

theorem lt_next_of_get? {s : Store α} {id : RecordId} {x : String} {a : α}
    (h : (s.record id).get? x = some a) : id < s.next := by
  refine Nat.lt_of_not_le fun hle ↦ ?_
  rw [record_of_le hle] at h
  cases h

theorem record_bind_of_le {s : Store α} {id : RecordId} (h : s.next ≤ id) (x : String) (a : α) :
    (s.bind id x a).record id = .empty := by
  apply record_of_le
  rw [next_bind]
  exact h

/-- What is bound in a store after one name has been bound anew. -/
theorem get?_record_bind {s : Store α} {id : RecordId} (h : id < s.next) (x : String) (a : α)
    (id' : RecordId) (x' : String) : ((s.bind id x a).record id').get? x'
      = if id' = id ∧ x' = x then some a else (s.record id').get? x' := by
  by_cases hid : id' = id
  · rw [hid, record_bind_self h]
    by_cases hx : x' = x
    · rw [hx, Bindings.get?_insert_self, if_pos ⟨rfl, rfl⟩]
    · rw [Bindings.get?_insert_of_ne hx, if_neg fun h ↦ hx h.2]
  · rw [record_bind_of_ne hid, if_neg fun h ↦ hid h.1]

end Store

end Lox
