import Lox.Proofs.Lexical.Placement

/-!
# Values that correspond

A value of a running program corresponds to one of the lexical semantics if the two cannot be told
apart by anything but the way in which functions find their variables: a function has a chain of
frames on one side and the names in scope on the other, and the placement relates the two. What is
known of the code of a function, namely that its distances fit its chain, is a part of that.
-/

namespace Lox

/-! ## Bindings -/

namespace Bindings

variable {α β : Type} {R : α → β → Prop} {b : Bindings α} {c : Bindings β}

/-- The same names in the same order, bound to related things. -/
def Related (R : α → β → Prop) (b : Bindings α) (c : Bindings β) : Prop :=
  List.Forall₂ (fun p q ↦ p.1 = q.1 ∧ R p.2 q.2) b.entries c.entries

theorem related_empty : Related R empty empty := .nil

theorem Related.mono {R' : α → β → Prop} (h : Related R b c) (hR : ∀ a a', R a a' → R' a a') :
    Related R' b c := List.Forall₂.imp (fun _ _ ⟨hname, ha⟩ ↦ ⟨hname, hR _ _ ha⟩) h

theorem Related.get? (h : Related R b c) (x : String) : Option.Rel R (b.get? x) (c.get? x) := by
  obtain ⟨entries⟩ := b
  obtain ⟨entries'⟩ := c
  simp only [Related, Bindings.get?] at h ⊢
  induction h with
  | nil => exact .none
  | @cons p q _ _ h _ ih =>
    obtain ⟨n, a⟩ := p
    obtain ⟨n', a'⟩ := q
    obtain ⟨rfl, ha⟩ : n = n' ∧ R a a' := h
    rw [findIn, findIn]
    split
    · exact .some ha
    · exact ih

theorem Related.contains (h : Related R b c) (x : String) : b.contains x = c.contains x := by
  rw [Bindings.contains, Bindings.contains]
  have hx := h.get? x
  generalize b.get? x = o at hx
  generalize c.get? x = o' at hx
  cases hx <;> rfl

theorem Related.insert (h : Related R b c) (x : String) {a : α} {a' : β} (ha : R a a') :
    Related R (b.insert x a) (c.insert x a') := by
  obtain ⟨entries⟩ := b
  obtain ⟨entries'⟩ := c
  rw [Related] at h ⊢
  simp only [Bindings.insert] at h ⊢
  induction h with
  | nil => exact .cons ⟨rfl, ha⟩ .nil
  | @cons p q ps qs h hrest ih =>
    obtain ⟨n, old⟩ := p
    obtain ⟨n', old'⟩ := q
    obtain ⟨rfl, hold⟩ : n = n' ∧ R old old' := h
    rw [insertInto, insertInto]
    split
    · exact .cons ⟨rfl, ha⟩ hrest
    · exact .cons ⟨rfl, hold⟩ ih

/-- Bindings that are made of related entries. -/
theorem related_ofList {entries : List (String × α)} {entries' : List (String × β)}
    (h : List.Forall₂ (fun p q ↦ p.1 = q.1 ∧ R p.2 q.2) entries entries') :
    (ofList entries).Related R (ofList entries') := by
  have hfoldl : ∀ (b : Bindings α) (c : Bindings β), b.Related R c →
      (entries.foldl (fun b e ↦ b.insert e.1 e.2) b).Related R
        (entries'.foldl (fun b e ↦ b.insert e.1 e.2) c) := by
    induction h with
    | nil => exact fun b c h ↦ h
    | @cons p q entries entries' hpq _ ih =>
      intro b c h
      obtain ⟨x, a⟩ := p
      obtain ⟨x', a'⟩ := q
      obtain ⟨rfl, ha⟩ : x = x' ∧ R a a' := hpq
      exact ih _ _ (h.insert x ha)
  exact hfoldl empty empty related_empty

/-- The same names in front of related things. -/
theorem forall₂_zip {as : List α} {bs : List β} (h : List.Forall₂ R as bs) (names : List String) :
    List.Forall₂ (fun p q ↦ p.1 = q.1 ∧ R p.2 q.2) (names.zip as) (names.zip bs) := by
  induction h generalizing names with
  | nil =>
    rw [List.zip_nil_right, List.zip_nil_right]
    exact .nil
  | cons ha _ ih =>
    cases names with
    | nil => exact .nil
    | cons x names => exact .cons ⟨rfl, ha⟩ (ih names)

end Bindings

namespace Lexical

variable {excused : String → Prop} {β β' : Placement}

/-! ## Values -/

/-- A method with the chain of its class, and the same method with its names. -/
structure MethodMatches (excused : String → Prop) (β : Placement) (F : FunDecl × Environment)
    (f : FunDecl × Names) : Prop where
  declaration : F.1 = f.1
  home : ∃ inherits ctx, Context.Proper ctx ∧ Placed β (.parent inherits :: ctx) F.2 ∧
    F.1.Scoped excused (.self :: .parent inherits :: ctx) ∧
    f.2 = β.names (.parent inherits :: ctx) F.2

/-- What a class knows of its methods. -/
structure MethodsMatch (excused : String → Prop) (β : Placement) (inherits : Bool)
    (methods : Bindings FunDecl) (env : Environment) (names : Names) : Prop where
  home : ∃ ctx, Context.Proper ctx ∧ Placed β (.parent inherits :: ctx) env ∧
    (∀ x f, methods.get? x = some f → f.Scoped excused (.self :: .parent inherits :: ctx)) ∧
    names = β.names (.parent inherits :: ctx) env

inductive ClassMatches (excused : String → Prop) (β : Placement) : Lox.Class → Class → Prop
  | plain {id : Nat} {name : String} {methods : Bindings FunDecl} {env : Environment}
      {names : Names} :
      MethodsMatch excused β false methods env names →
      ClassMatches excused β ⟨id, name, none, methods, env⟩ ⟨id, name, none, methods, names⟩
  | derived {id : Nat} {name : String} {C : Lox.Class} {c : Class} {methods : Bindings FunDecl}
      {env : Environment} {names : Names} :
      ClassMatches excused β C c → MethodsMatch excused β true methods env names →
      ClassMatches excused β ⟨id, name, some C, methods, env⟩ ⟨id, name, some c, methods, names⟩

structure ClosureMatches (excused : String → Prop) (β : Placement) (F : Lox.Closure) (f : Closure) :
    Prop where
  id : F.id = f.id
  declaration : F.declaration = f.declaration
  home : ∃ ctx, Context.Proper ctx ∧ Placed β ctx F.environment ∧ F.declaration.Scoped excused ctx ∧
    f.names = β.names ctx F.environment

inductive ValueMatches (excused : String → Prop) (β : Placement) : Lox.Value → Value → Prop
  | nil : ValueMatches excused β .nil .nil
  | bool {b : Bool} : ValueMatches excused β (.bool b) (.bool b)
  | number {x : Float} : ValueMatches excused β (.number x) (.number x)
  | string {s : String} : ValueMatches excused β (.string s) (.string s)
  | native {n : Native} : ValueMatches excused β (.native n) (.native n)
  | function {F : Lox.Closure} {f : Closure} :
      ClosureMatches excused β F f → ValueMatches excused β (.function F) (.function f)
  | class {C : Lox.Class} {c : Class} :
      ClassMatches excused β C c → ValueMatches excused β (.class C) (.class c)
  | instance {fields : RecordId} {C : Lox.Class} {c : Class} :
      ClassMatches excused β C c →
      ValueMatches excused β (.instance ⟨fields, C⟩) (.instance ⟨fields, c⟩)

/-! ## More placements -/

theorem MethodsMatch.mono {inherits : Bool} {methods : Bindings FunDecl} {env : Environment}
    {names : Names} (h : MethodsMatch excused β inherits methods env names) (hβ : β.Within β') :
    MethodsMatch excused β' inherits methods env names := by
  obtain ⟨ctx, hproper, hplaced, hmethods, hnames⟩ := h
  exact ⟨ctx, hproper, hplaced.mono hβ, hmethods, hnames.trans (hplaced.names_eq hβ).symm⟩

theorem ClassMatches.mono {C : Lox.Class} {c : Class} (h : ClassMatches excused β C c)
    (hβ : β.Within β') : ClassMatches excused β' C c := by
  induction h with
  | plain hmethods => exact .plain (hmethods.mono hβ)
  | derived _ hmethods ih => exact .derived ih (hmethods.mono hβ)

theorem ClosureMatches.mono {F : Lox.Closure} {f : Closure} (h : ClosureMatches excused β F f)
    (hβ : β.Within β') : ClosureMatches excused β' F f := by
  obtain ⟨hid, hdeclaration, ctx, hproper, hplaced, hscoped, hnames⟩ := h
  exact ⟨hid, hdeclaration, ctx, hproper, hplaced.mono hβ, hscoped,
    hnames.trans (hplaced.names_eq hβ).symm⟩

theorem ValueMatches.mono {V : Lox.Value} {v : Value} (h : ValueMatches excused β V v)
    (hβ : β.Within β') : ValueMatches excused β' V v := by
  cases h with
  | nil => exact .nil
  | bool => exact .bool
  | number => exact .number
  | string => exact .string
  | native => exact .native
  | function h => exact .function (h.mono hβ)
  | «class» h => exact .class (h.mono hβ)
  | «instance» h => exact .instance (h.mono hβ)

/-! ## More names that are excused -/

section

variable {excused' : String → Prop} (hexcused : ∀ x, excused x → excused' x)

include hexcused

theorem MethodsMatch.excuse {inherits : Bool} {methods : Bindings FunDecl} {env : Environment}
    {names : Names} (h : MethodsMatch excused β inherits methods env names) :
    MethodsMatch excused' β inherits methods env names := by
  obtain ⟨ctx, hproper, hplaced, hmethods, hnames⟩ := h
  exact ⟨ctx, hproper, hplaced, fun x f hf ↦ (hmethods x f hf).mono hexcused, hnames⟩

theorem ClassMatches.excuse {C : Lox.Class} {c : Class} (h : ClassMatches excused β C c) :
    ClassMatches excused' β C c := by
  induction h with
  | plain hmethods => exact .plain (hmethods.excuse hexcused)
  | derived _ hmethods ih => exact .derived ih (hmethods.excuse hexcused)

theorem ClosureMatches.excuse {F : Lox.Closure} {f : Closure} (h : ClosureMatches excused β F f) :
    ClosureMatches excused' β F f := by
  obtain ⟨hid, hdeclaration, ctx, hproper, hplaced, hscoped, hnames⟩ := h
  exact ⟨hid, hdeclaration, ctx, hproper, hplaced, hscoped.mono hexcused, hnames⟩

theorem ValueMatches.excuse {V : Lox.Value} {v : Value} (h : ValueMatches excused β V v) :
    ValueMatches excused' β V v := by
  cases h with
  | nil => exact .nil
  | bool => exact .bool
  | number => exact .number
  | string => exact .string
  | native => exact .native
  | function h => exact .function (h.excuse hexcused)
  | «class» h => exact .class (h.excuse hexcused)
  | «instance» h => exact .instance (h.excuse hexcused)

end

/-! ## Methods and operators -/

theorem ClassMatches.findMethod? {C : Lox.Class} {c : Class} (h : ClassMatches excused β C c)
    (x : String) :
    Option.Rel (MethodMatches excused β) (C.findMethod? x) (c.findMethod? x) := by
  have hfound : ∀ {inherits methods env names f},
      MethodsMatch excused β inherits methods env names →
      methods.get? x = some f → MethodMatches excused β (f, env) (f, names) := by
    rintro inherits methods env names f ⟨ctx, hproper, hplaced, hmethods, hnames⟩ hf
    exact ⟨rfl, inherits, ctx, hproper, hplaced, hmethods x f hf, hnames⟩
  induction h with
  | @plain _ _ methods _ _ hmethods =>
    rw [Lox.Class.findMethod?, Class.findMethod?]
    cases hf : methods.get? x with
    | none => exact .none
    | some f => exact .some (hfound hmethods hf)
  | @derived _ _ C c methods _ _ _ hmethods ih =>
    rw [Lox.Class.findMethod?, Class.findMethod?]
    cases hf : methods.get? x with
    | none => exact ih
    | some f => exact .some (hfound hmethods hf)

theorem ClassMatches.name_eq {C : Lox.Class} {c : Class} (h : ClassMatches excused β C c) :
    C.name = c.name := by cases h <;> rfl

theorem ClassMatches.id_eq {C : Lox.Class} {c : Class} (h : ClassMatches excused β C c) :
    C.id = c.id := by cases h <;> rfl

theorem ClassMatches.arity_eq {C : Lox.Class} {c : Class} (h : ClassMatches excused β C c) :
    C.arity = c.arity := by
  rw [Lox.Class.arity, Class.arity]
  have hfind := h.findMethod? initializerName
  generalize C.findMethod? initializerName = F at hfind
  generalize c.findMethod? initializerName = f at hfind
  cases hfind with
  | none => rfl
  | some hm => exact congrArg FunDecl.arity hm.declaration

namespace ValueMatches

variable {V W : Lox.Value} {v w : Value}

theorem ofLiteral (value : Literal) : ValueMatches excused β value.toValue (.ofLiteral value) := by
  cases value <;> constructor

theorem isTruthy_eq (h : ValueMatches excused β V v) : V.isTruthy = v.isTruthy := by
  cases h <;> rfl

theorem text_eq (h : ValueMatches excused β V v) : V.text = v.text := by
  cases h with
  | bool => rename_i b; cases b <;> rfl
  | function h => rw [Lox.Value.text, Value.text, h.declaration]
  | «class» h => exact h.name_eq
  | «instance» h => rw [Lox.Value.text, Value.text, h.name_eq]
  | _ => rfl

theorem signature?_eq (h : ValueMatches excused β V v) : V.signature? = v.signature? := by
  cases h with
  | function h => rw [Lox.Value.signature?, Value.signature?, h.declaration]
  | «class» h => rw [Lox.Value.signature?, Value.signature?, h.name_eq, h.arity_eq]
  | _ => rfl

theorem isEqual_eq (h : ValueMatches excused β V v) (h' : ValueMatches excused β W w) :
    V.isEqual W = v.isEqual w := by
  cases h with
  | function h =>
    cases h' with
    | function h' => rw [Lox.Value.isEqual, Value.isEqual, h.id, h'.id]
    | _ => rfl
  | «class» h =>
    cases h' with
    | «class» h' => rw [Lox.Value.isEqual, Value.isEqual, h.id_eq, h'.id_eq]
    | _ => rfl
  | _ => cases h' <;> rfl

end ValueMatches

/-- Two outcomes of an operator. -/
def ResultMatches (excused : String → Prop) (β : Placement) : Except Issue Lox.Value →
    Except Issue Value → Prop
  | .ok V, .ok v => ValueMatches excused β V v
  | .error i, .error j => i = j
  | _, _ => False

namespace ValueMatches

variable {V W : Lox.Value} {v w : Value}

theorem unary (operator : Token) (h : ValueMatches excused β V v) :
    ResultMatches excused β (Lox.Value.unary operator V) (Value.unary operator v) := by
  have hnot : ValueMatches excused β (.bool !V.isTruthy) (.bool !v.isTruthy) := by
    rw [h.isTruthy_eq]
    exact .bool
  unfold Lox.Value.unary Value.unary
  cases operator.kind with
  | bang => exact hnot
  | minus =>
    cases h with
    | number => exact .number
    | _ => rfl
  | _ => rfl

theorem binary (operator : Token) (h : ValueMatches excused β V v)
    (h' : ValueMatches excused β W w) :
    ResultMatches excused β (Lox.Value.binary operator V W) (Value.binary operator v w) := by
  have hequal := h.isEqual_eq h'
  unfold Lox.Value.binary Value.binary
  cases operator.kind with
  | equalEqual =>
    rw [hequal]
    exact .bool
  | bangEqual =>
    rw [hequal]
    exact .bool
  | plus =>
    cases h with
    | number =>
      cases h' with
      | number => exact .number
      | _ => rfl
    | string =>
      cases h' with
      | string => exact .string
      | _ => rfl
    | _ => rfl
  | _ =>
    cases h with
    | number =>
      cases h' with
      | number => first | exact .number | exact .bool | rfl
      | _ => rfl
    | _ => rfl

end ValueMatches

end Lexical

end Lox
