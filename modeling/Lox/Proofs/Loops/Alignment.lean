import Lox.Proofs.Actions
import Lox.Proofs.Lexical.Correspondence
import Lox.Proofs.Loops.Padding

/-!
# Machines with additional frames

Two machines run the same code, but the second one makes frames that the first one does not make. So
the numbers of their frames differ, and a pairing says which frames belong together. Nothing is said
about the frames of the second machine that belong to none of the first one.

Everything else is the same on both sides: the objects and what their fields are called, the
identities of functions and classes, and what has been printed. Only the number of statements that
have been begun differs, because the additional frames come from additional statements.
-/

namespace Lox

/-- Which frames of two machines belong together. -/
abbrev Pairing := RecordId → RecordId → Prop

/-- Whatever belongs together still does so. -/
def Pairing.Within (τ τ' : Pairing) : Prop := ∀ ⦃id id'⦄, τ id id' → τ' id id'

/-- The pairing with another pair. -/
def Pairing.add (τ : Pairing) (id id' : RecordId) : Pairing :=
  fun i i' ↦ τ i i' ∨ (i = id ∧ i' = id')

variable {τ τ' : Pairing} {Γ : Padding}

theorem Pairing.within_add (τ : Pairing) (id id' : RecordId) : τ.Within (τ.add id id') :=
  fun _ _ h ↦ .inl h

theorem Pairing.add_self (τ : Pairing) (id id' : RecordId) : τ.add id id' id id' := .inr ⟨rfl, rfl⟩

/-! ## Chains -/

/-- A chain of frames, and the same chain with additional ones. -/
inductive Chains (τ : Pairing) : Padding → Environment → Environment → Prop
  | nil : Chains τ [] [] []
  | common {Γ : Padding} {id id' : RecordId} {env env' : Environment} :
      τ id id' → Chains τ Γ env env' → Chains τ (false :: Γ) (id :: env) (id' :: env')
  | extra {Γ : Padding} {id' : RecordId} {env env' : Environment} :
      Chains τ Γ env env' → Chains τ (true :: Γ) env (id' :: env')

namespace Chains

variable {env env' : Environment}

theorem mono (h : Chains τ Γ env env') (hτ : τ.Within τ') : Chains τ' Γ env env' := by
  induction h with
  | nil => exact .nil
  | common hid _ ih => exact .common (hτ hid) ih
  | extra _ ih => exact .extra ih

/-- A distance leads to frames that belong together, or out of both chains. -/
theorem drop (h : Chains τ Γ env env') (d : Nat) :
    (env.drop d = [] ∧ env'.drop (Γ.lift d) = []) ∨
      ∃ id rest id' rest', env.drop d = id :: rest ∧ env'.drop (Γ.lift d) = id' :: rest' ∧
        τ id id' := by
  induction h generalizing d with
  | nil => exact .inl ⟨List.drop_nil, List.drop_nil⟩
  | @common _ id id' env env' hid _ ih =>
    cases d with
    | zero => exact .inr ⟨id, env, id', env', rfl, rfl, hid⟩
    | succ d => exact ih d
  | extra _ ih => exact ih d

/-- Where the innermost frame is a common one, names are declared in frames that belong together. -/
theorem head (h : Chains τ Γ env env') (hopen : Γ.IsOpen) :
    (env = [] ∧ env' = []) ∨
      ∃ id rest id' rest', env = id :: rest ∧ env' = id' :: rest' ∧ τ id id' := by
  cases h with
  | nil => exact .inl ⟨rfl, rfl⟩
  | common hid _ => exact .inr ⟨_, _, _, _, rfl, rfl, hid⟩
  | extra => exact absurd rfl hopen

end Chains

/-! ## Values -/

/-- A method with the chain of its class. -/
def Methods.Aligned (τ : Pairing) (F G : FunDecl × Environment) : Prop :=
  ∃ Γ, Chains τ Γ F.2 G.2 ∧ F.1.Pads (false :: Γ) G.1

inductive Class.Aligned (τ : Pairing) : Class → Class → Prop
  | plain {id : Nat} {name : String} {methods methods' : Bindings FunDecl}
      {env env' : Environment} {Γ : Padding} :
      Chains τ Γ env env' → methods.Related (FunDecl.Pads (false :: Γ)) methods' →
      Class.Aligned τ ⟨id, name, none, methods, env⟩ ⟨id, name, none, methods', env'⟩
  | derived {id : Nat} {name : String} {C C' : Class} {methods methods' : Bindings FunDecl}
      {env env' : Environment} {Γ : Padding} :
      Class.Aligned τ C C' → Chains τ Γ env env' →
      methods.Related (FunDecl.Pads (false :: Γ)) methods' →
      Class.Aligned τ ⟨id, name, some C, methods, env⟩ ⟨id, name, some C', methods', env'⟩

/-- A function, and the same one with more frames in its chain. -/
structure Closure.Aligned (τ : Pairing) (F G : Closure) : Prop where
  id : F.id = G.id
  home : ∃ Γ, Chains τ Γ F.environment G.environment ∧ F.declaration.Pads Γ G.declaration

inductive Value.Aligned (τ : Pairing) : Value → Value → Prop
  | nil : Value.Aligned τ .nil .nil
  | bool {b : Bool} : Value.Aligned τ (.bool b) (.bool b)
  | number {x : Float} : Value.Aligned τ (.number x) (.number x)
  | string {s : String} : Value.Aligned τ (.string s) (.string s)
  | native {n : Native} : Value.Aligned τ (.native n) (.native n)
  | function {F G : Closure} : F.Aligned τ G → Value.Aligned τ (.function F) (.function G)
  | class {C D : Class} : C.Aligned τ D → Value.Aligned τ (.class C) (.class D)
  | instance {fields : RecordId} {C D : Class} :
      C.Aligned τ D → Value.Aligned τ (.instance ⟨fields, C⟩) (.instance ⟨fields, D⟩)

theorem Class.Aligned.mono {C D : Class} (h : C.Aligned τ D) (hτ : τ.Within τ') :
    C.Aligned τ' D := by
  induction h with
  | plain henv hmethods => exact .plain (henv.mono hτ) hmethods
  | derived _ henv hmethods ih => exact .derived ih (henv.mono hτ) hmethods

theorem Closure.Aligned.mono {F G : Closure} (h : F.Aligned τ G) (hτ : τ.Within τ') :
    F.Aligned τ' G := by
  obtain ⟨hid, Γ, henv, hcode⟩ := h
  exact ⟨hid, Γ, henv.mono hτ, hcode⟩

theorem Closure.Aligned.name_eq {F G : Closure} (h : F.Aligned τ G) :
    F.declaration.name = G.declaration.name := by
  obtain ⟨-, Γ, -, hcode⟩ := h
  exact hcode.name_eq

theorem Closure.Aligned.arity_eq {F G : Closure} (h : F.Aligned τ G) :
    F.declaration.arity = G.declaration.arity := by
  obtain ⟨-, Γ, -, hcode⟩ := h
  exact hcode.arity_eq

namespace Class.Aligned

variable {C D : Class}

theorem id_eq (h : C.Aligned τ D) : C.id = D.id := by cases h <;> rfl

theorem name_eq (h : C.Aligned τ D) : C.name = D.name := by cases h <;> rfl

/-- A method is looked for in the class itself before it is looked for above it. -/
theorem findMethod?_of_methods {id id' : Nat} {name name' x : String}
    {parent parent' : Option Class}
    {methods methods' : Bindings FunDecl} {env env' : Environment} (henv : Chains τ Γ env env')
    (hmethods : methods.Related (FunDecl.Pads (false :: Γ)) methods')
    (hparent : Option.Rel (Methods.Aligned τ) (parent.bind fun P ↦ P.findMethod? x)
      (parent'.bind fun P ↦ P.findMethod? x)) :
    Option.Rel (Methods.Aligned τ) (Class.findMethod? ⟨id, name, parent, methods, env⟩ x)
      (Class.findMethod? ⟨id', name', parent', methods', env'⟩ x) := by
  have hx := hmethods.get? x
  rw [Class.findMethod?.eq_def, Class.findMethod?.eq_def]
  simp only
  generalize methods.get? x = f at hx
  generalize methods'.get? x = f' at hx
  cases hx with
  | none => cases parent <;> cases parent' <;> exact hparent
  | some hf => exact .some ⟨Γ, henv, hf⟩

theorem findMethod? (h : C.Aligned τ D) (x : String) :
    Option.Rel (Methods.Aligned τ) (C.findMethod? x) (D.findMethod? x) := by
  induction h with
  | plain henv hmethods => exact findMethod?_of_methods henv hmethods .none
  | derived _ henv hmethods ih => exact findMethod?_of_methods henv hmethods ih

theorem arity_eq (h : C.Aligned τ D) : C.arity = D.arity := by
  rw [Class.arity, Class.arity]
  have hfind := h.findMethod? initializerName
  generalize C.findMethod? initializerName = F at hfind
  generalize D.findMethod? initializerName = G at hfind
  cases hfind with
  | none => rfl
  | some hm =>
    obtain ⟨Γ, -, hcode⟩ := hm
    exact hcode.arity_eq

end Class.Aligned

/-- Two outcomes of an operator. -/
inductive ResultsAligned (τ : Pairing) : Except Issue Value → Except Issue Value → Prop
  | ok {V W : Value} : V.Aligned τ W → ResultsAligned τ (.ok V) (.ok W)
  | error {i : Issue} : ResultsAligned τ (.error i) (.error i)

namespace Value.Aligned

variable {V V' W W' : Value}

theorem mono (h : V.Aligned τ V') (hτ : τ.Within τ') : V.Aligned τ' V' := by
  cases h with
  | nil => exact .nil
  | bool => exact .bool
  | number => exact .number
  | string => exact .string
  | native => exact .native
  | function h => exact .function (h.mono hτ)
  | «class» h => exact .class (h.mono hτ)
  | «instance» h => exact .instance (h.mono hτ)

theorem toValue (value : Literal) : value.toValue.Aligned τ value.toValue := by
  cases value <;> constructor

theorem isTruthy_eq (h : V.Aligned τ V') : V.isTruthy = V'.isTruthy := by cases h <;> rfl

theorem text_eq (h : V.Aligned τ V') : V.text = V'.text := by
  cases h with
  | function h => rw [text, text, h.name_eq]
  | «class» h => exact h.name_eq
  | «instance» h => rw [text, text, h.name_eq]
  | _ => rfl

theorem signature?_eq (h : V.Aligned τ V') : V.signature? = V'.signature? := by
  cases h with
  | function h => rw [signature?, signature?, h.name_eq, h.arity_eq]
  | «class» h => rw [signature?, signature?, h.name_eq, h.arity_eq]
  | _ => rfl

theorem isEqual_eq (h : V.Aligned τ V') (h' : W.Aligned τ W') : V.isEqual W = V'.isEqual W' := by
  cases h with
  | function h =>
    cases h' with
    | function h' => rw [isEqual, isEqual, h.id, h'.id]
    | _ => rfl
  | «class» h =>
    cases h' with
    | «class» h' => rw [isEqual, isEqual, h.id_eq, h'.id_eq]
    | _ => rfl
  | _ => cases h' <;> rfl

theorem unary (operator : Token) (h : V.Aligned τ V') :
    ResultsAligned τ (Value.unary operator V) (Value.unary operator V') := by
  have hnot : Value.Aligned τ (.bool !V.isTruthy) (.bool !V'.isTruthy) := by
    rw [h.isTruthy_eq]
    exact .bool
  unfold Value.unary
  cases operator.kind with
  | bang => exact .ok hnot
  | minus =>
    cases h with
    | number => exact .ok .number
    | _ => exact .error
  | _ => exact .error

theorem binary (operator : Token) (h : V.Aligned τ V') (h' : W.Aligned τ W') :
    ResultsAligned τ (Value.binary operator V W) (Value.binary operator V' W') := by
  have hequal := h.isEqual_eq h'
  unfold Value.binary
  cases operator.kind with
  | equalEqual =>
    rw [hequal]
    exact .ok .bool
  | bangEqual =>
    rw [hequal]
    exact .ok .bool
  | plus =>
    cases h with
    | number =>
      cases h' with
      | number => exact .ok .number
      | _ => exact .error
    | string =>
      cases h' with
      | string => exact .ok .string
      | _ => exact .error
    | _ => exact .error
  | _ =>
    cases h with
    | number =>
      cases h' with
      | number => first | exact .ok .number | exact .ok .bool | exact .error
      | _ => exact .error
    | _ => exact .error

end Value.Aligned

/-! ## Records -/

/-- Two records show the same texts, entry by entry, and bind the same names to what is aligned. An
entry that is never found again is of no other interest. -/
structure Bindings.Aligned (τ : Pairing) (b b' : Bindings Value) : Prop where
  shown : b.Related (fun V W ↦ V.text = W.text) b'
  bound : ∀ x, Option.Rel (Value.Aligned τ) (b.get? x) (b'.get? x)

namespace Bindings.Aligned

variable {b b' : Bindings Value}

theorem of_related (h : b.Related (Value.Aligned τ) b') : b.Aligned τ b' :=
  ⟨h.mono fun _ _ hV ↦ hV.text_eq, h.get?⟩

theorem mono (h : b.Aligned τ b') (hτ : τ.Within τ') : b.Aligned τ' b' := by
  refine ⟨h.shown, fun x ↦ ?_⟩
  have hx := h.bound x
  generalize b.get? x = V at hx
  generalize b'.get? x = W at hx
  cases hx with
  | none => exact .none
  | some hV => exact .some (hV.mono hτ)

theorem insert (h : b.Aligned τ b') (x : String) {V W : Value} (hV : V.Aligned τ W) :
    (b.insert x V).Aligned τ (b'.insert x W) := by
  refine ⟨h.shown.insert x hV.text_eq, fun y ↦ ?_⟩
  by_cases hy : y = x
  · rw [hy, get?_insert_self, get?_insert_self]
    exact .some hV
  · rw [get?_insert_of_ne hy, get?_insert_of_ne hy]
    exact h.bound y

end Bindings.Aligned

/-! ## Machines -/

/-- Two machines, of which the second one may have additional frames. -/
structure Machine.Aligned (τ : Pairing) (M N : Machine) : Prop where
  /-- Frames that belong together bind the same names. -/
  frames : ∀ ⦃id id'⦄, τ id id' → id < M.frames.next ∧ id' < N.frames.next ∧
    (M.frames.record id).Aligned τ (N.frames.record id')
  unique : ∀ ⦃i i' j j'⦄, τ i i' → τ j j' → (i = j ↔ i' = j')
  builtins : τ builtinFrame builtinFrame
  globals : τ globalFrame globalFrame
  objectsNext : M.objects.next = N.objects.next
  objects : ∀ id, (M.objects.record id).Aligned τ (N.objects.record id)
  nextId : M.nextId = N.nextId
  readings : M.readings = N.readings
  printed : M.printed = N.printed

namespace Machine.Aligned

variable {M N : Machine} {b b' : Bindings Value} {x : String} {V W : Value} {id id' : RecordId}

/-- A new frame on both sides. -/
theorem push (h : M.Aligned τ N) (hb : b.Related (Value.Aligned τ) b') :
    Machine.Aligned (τ.add M.frames.next N.frames.next) { M with frames := M.frames.push b }
      { N with frames := N.frames.push b' } := by
  have hτ := Pairing.within_add τ M.frames.next N.frames.next
  exact { h with
    frames := by
      rintro i i' (hi | ⟨rfl, rfl⟩)
      · obtain ⟨hlt, hlt', haligned⟩ := h.frames hi
        rw [Store.next_push, Store.next_push, Store.record_push_of_lt hlt,
          Store.record_push_of_lt hlt']
        exact ⟨Nat.lt_succ_of_lt hlt, Nat.lt_succ_of_lt hlt', haligned.mono hτ⟩
      · rw [Store.next_push, Store.next_push, Store.record_push_self, Store.record_push_self]
        exact ⟨Nat.lt_succ_self _, Nat.lt_succ_self _, (Bindings.Aligned.of_related hb).mono hτ⟩
    unique := by
      rintro i i' j j' (hi | ⟨rfl, rfl⟩) (hj | ⟨rfl, rfl⟩)
      · exact h.unique hi hj
      · exact iff_of_false (Nat.ne_of_lt (h.frames hi).1) (Nat.ne_of_lt (h.frames hi).2.1)
      · exact iff_of_false (Nat.ne_of_gt (h.frames hj).1) (Nat.ne_of_gt (h.frames hj).2.1)
      · exact iff_of_true rfl rfl
    builtins := hτ h.builtins
    globals := hτ h.globals
    objects := fun id ↦ (h.objects id).mono hτ }

/-- An additional frame. -/
theorem pushExtra (h : M.Aligned τ N) (b' : Bindings Value) :
    M.Aligned τ { N with frames := N.frames.push b' } :=
  { h with
    frames := fun i i' hi ↦ by
      obtain ⟨hlt, hlt', haligned⟩ := h.frames hi
      rw [Store.next_push, Store.record_push_of_lt hlt']
      exact ⟨hlt, Nat.lt_succ_of_lt hlt', haligned⟩ }

/-- A name is bound in two frames that belong together. -/
theorem bind (h : M.Aligned τ N) (hid : τ id id') (x : String) (hV : V.Aligned τ W) :
    Machine.Aligned τ { M with frames := M.frames.bind id x V }
      { N with frames := N.frames.bind id' x W } :=
  { h with
    frames := fun i i' hi ↦ by
      obtain ⟨hlt, hlt', haligned⟩ := h.frames hi
      rw [Store.next_bind, Store.next_bind]
      refine ⟨hlt, hlt', ?_⟩
      by_cases heq : i = id
      · obtain rfl := heq
        obtain rfl : i' = id' := (h.unique hi hid).mp rfl
        rw [Store.record_bind_self hlt, Store.record_bind_self hlt']
        exact haligned.insert x hV
      · have hne : i' ≠ id' := fun h' ↦ heq ((h.unique hi hid).mpr h')
        rw [Store.record_bind_of_ne heq, Store.record_bind_of_ne hne]
        exact haligned }

/-- A new instance. -/
theorem pushObject (h : M.Aligned τ N) :
    Machine.Aligned τ { M with objects := M.objects.push .empty }
      { N with objects := N.objects.push .empty } :=
  { h with
    objectsNext := by rw [Store.next_push, Store.next_push, h.objectsNext]
    objects := fun id ↦ by
      rw [Store.record_push, Store.record_push, h.objectsNext]
      split
      · exact .of_related Bindings.related_empty
      · exact h.objects id }

/-- A field is bound. -/
theorem bindField (h : M.Aligned τ N) (id : RecordId) (x : String) (hV : V.Aligned τ W) :
    Machine.Aligned τ { M with objects := M.objects.bind id x V }
      { N with objects := N.objects.bind id x W } :=
  { h with
    objectsNext := by rw [Store.next_bind, Store.next_bind, h.objectsNext]
    objects := fun i ↦ by
      by_cases heq : i = id
      · subst heq
        by_cases hlt : i < M.objects.next
        · rw [Store.record_bind_self hlt, Store.record_bind_self (h.objectsNext ▸ hlt)]
          exact (h.objects i).insert x hV
        · have hle : M.objects.next ≤ i := Nat.le_of_not_lt hlt
          rw [Store.record_bind_of_le hle, Store.record_bind_of_le (h.objectsNext ▸ hle)]
          exact .of_related Bindings.related_empty
      · rw [Store.record_bind_of_ne heq, Store.record_bind_of_ne heq]
        exact h.objects i }

/-- The globals show the same names and texts. -/
theorem globals_eq (h : M.Aligned τ N) :
    (M.frames.record globalFrame).entries.map (fun e ↦ (e.1, e.2.text))
      = (N.frames.record globalFrame).entries.map fun e ↦ (e.1, e.2.text) := by
  rw [← List.forall₂_eq_eq_eq]
  refine List.forall₂_map_left_iff.mpr (List.forall₂_map_right_iff.mpr
    ((h.frames h.globals).2.2.shown.imp ?_))
  rintro ⟨x, V⟩ ⟨_, W⟩ ⟨rfl, htext⟩
  exact congrArg (Prod.mk x) htext

/-! ### Finding names -/

/-- A search from the globals finds frames that belong together. -/
theorem frameOf?_globals (h : M.Aligned τ N) (x : String) :
    Option.Rel τ (M.frames.frameOf? Machine.globals x) (N.frames.frameOf? Machine.globals x) := by
  rw [Store.frameOf?_globals, Store.frameOf?_globals, (h.frames h.globals).2.2.shown.contains,
    (h.frames h.builtins).2.2.shown.contains]
  split
  · exact .some h.globals
  · split
    · exact .some h.builtins
    · exact .none

theorem get?_globals (h : M.Aligned τ N) (x : String) :
    Option.Rel (Value.Aligned τ) (M.frames.get? Machine.globals x)
      (N.frames.get? Machine.globals x) := by
  rw [Store.get?, Store.get?]
  have hframe := h.frameOf?_globals x
  generalize M.frames.frameOf? Machine.globals x = o at hframe
  generalize N.frames.frameOf? Machine.globals x = o' at hframe
  cases hframe with
  | none => exact .none
  | some hid => exact (h.frames hid).2.2.bound x

end Machine.Aligned

end Lox
