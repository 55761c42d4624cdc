/-!
# Bindings

Names and what they are bound to. A name keeps the position at which it was first bound, so the
order of the names is part of the value, but nothing else remembers how often a name was bound.
-/

namespace Lox

/-- A finite map from names, in the order in which the names were first bound. -/
structure Bindings (α : Type) where
  entries : List (String × α)
  deriving Repr

namespace Bindings

variable {α β : Type}

/-- No name is bound. -/
def empty : Bindings α := ⟨[]⟩

instance : Inhabited (Bindings α) := ⟨empty⟩

/-- The first entry for a name. -/
def findIn (name : String) : List (String × α) → Option α
  | [] => none
  | (n, a) :: rest => if name = n then some a else findIn name rest

/-- What a name is bound to. -/
def get? (b : Bindings α) (name : String) : Option α := findIn name b.entries

def contains (b : Bindings α) (name : String) : Bool := (b.get? name).isSome

/-- Replaces the binding of `name` where it stands, or adds one at the end. -/
def insertInto (name : String) (a : α) : List (String × α) → List (String × α)
  | [] => [(name, a)]
  | (n, old) :: rest =>
    if name = n then (name, a) :: rest else (n, old) :: insertInto name a rest

/-- Binds a name, in place of what it was bound to before. -/
def insert (b : Bindings α) (name : String) (a : α) : Bindings α :=
  ⟨insertInto name a b.entries⟩

/-- Binds names one after the other. -/
def ofList (entries : List (String × α)) : Bindings α :=
  entries.foldl (fun b e ↦ b.insert e.1 e.2) empty

def names (b : Bindings α) : List String := b.entries.map Prod.fst

/-- The names in the order of their code points. -/
def sortedNames (b : Bindings α) : List String := b.names.mergeSort

/-! ## What the operations do to a name -/

@[simp] theorem get?_empty (name : String) : (empty : Bindings α).get? name = none := rfl

theorem findIn_insertInto (name other : String) (a : α) (entries : List (String × α)) :
    findIn other (insertInto name a entries)
      = if other = name then some a else findIn other entries := by
  fun_induction insertInto name a entries with
  | case1 => simp [findIn]
  | case2 rest _ => by_cases h : other = name <;> simp [findIn, h]
  | case3 n old rest hn ih =>
    by_cases h : other = n
    · simp [findIn, h, Ne.symm hn]
    · simp [findIn, h, ih]

@[simp] theorem get?_insert_self (b : Bindings α) (name : String) (a : α) :
    (b.insert name a).get? name = some a := by
  simp [insert, get?, findIn_insertInto]

theorem get?_insert_of_ne {name other : String} (h : other ≠ name) (b : Bindings α) (a : α) :
    (b.insert name a).get? other = b.get? other := by
  simp [insert, get?, findIn_insertInto, h]

/-- Whatever is bound in the end was bound at some time. -/
theorem mem_of_get?_ofList {entries : List (String × α)} {x : String} {a : α}
    (h : (ofList entries).get? x = some a) : (x, a) ∈ entries := by
  have hfoldl : ∀ (entries : List (String × α)) (b : Bindings α),
      (entries.foldl (fun b e ↦ b.insert e.1 e.2) b).get? x = some a →
      (x, a) ∈ entries ∨ b.get? x = some a := by
    intro entries
    induction entries with
    | nil => exact fun b h ↦ .inr h
    | cons e entries ih =>
      intro b h
      rcases ih _ h with h | h
      · exact .inl (List.mem_cons_of_mem _ h)
      · by_cases hx : x = e.1
        · rw [hx, get?_insert_self] at h
          obtain rfl : e.2 = a := Option.some.inj h
          exact .inl (hx ▸ List.mem_cons_self)
        · rw [get?_insert_of_ne hx] at h
          exact .inr h
  exact (hfoldl entries empty h).resolve_right fun h ↦ by cases h

/-- Binding a name again changes no position. -/
theorem names_insert (b : Bindings α) (name : String) (a : α) :
    (b.insert name a).names = if name ∈ b.names then b.names else b.names ++ [name] := by
  obtain ⟨entries⟩ := b
  simp only [names, insert]
  induction entries with
  | nil => simp [insertInto]
  | cons e rest ih =>
    obtain ⟨n, old⟩ := e
    by_cases hn : name = n
    · simp [insertInto, hn]
    · by_cases hr : name ∈ rest.map Prod.fst <;> simp_all [insertInto]

theorem mem_names_insert {b : Bindings α} {name other : String} {a : α} :
    other ∈ (b.insert name a).names ↔ other ∈ b.names ∨ other = name := by
  rw [names_insert]
  split
  · rename_i hmem
    exact ⟨.inl, fun h ↦ h.elim id fun heq ↦ heq ▸ hmem⟩
  · rw [List.mem_append, List.mem_singleton]

theorem mem_names_of_get? {b : Bindings α} {name : String} {a : α} (h : b.get? name = some a) :
    name ∈ b.names := by
  obtain ⟨entries⟩ := b
  simp only [get?, names] at h ⊢
  fun_induction findIn name entries with
  | case1 => cases h
  | case2 => exact List.mem_cons_self
  | case3 n a rest hn ih => exact List.mem_cons_of_mem _ (ih h)

theorem exists_of_mem_names {b : Bindings α} {name : String} (h : name ∈ b.names) :
    ∃ a, b.get? name = some a := by
  obtain ⟨entries⟩ := b
  simp only [get?, names] at h ⊢
  fun_induction findIn name entries with
  | case1 => cases h
  | case2 a => exact ⟨a, rfl⟩
  | case3 n a rest hn ih => exact ih ((List.mem_cons.mp h).resolve_left hn)

end Bindings

end Lox
