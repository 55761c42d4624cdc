import Lox.Machine

/-!
# Recasting programs

A token knows its line, and a reference has a slot for a number: the distance to the declaration,
once that has been found. Here the lines and the slots of a program are changed by any functions
whatsoever, and with them those of everything that a program leaves behind on a machine: functions
and classes hold their declarations, and so frames and fields do as well.

All other things about trees and values are as before, which is what the small lemmas say.
-/

namespace Lox

/-- What becomes of lines and of slots. -/
structure Recasting where
  line : Int → Int
  slot : Option Nat → Option Nat

namespace Recasting

/-- Only the lines change. -/
abbrev lines (f : Int → Int) : Recasting := ⟨f, id⟩

/-- Only the slots change. -/
abbrev slots (φ : Option Nat → Option Nat) : Recasting := ⟨id, φ⟩

end Recasting

/-! ## Trees -/

/-- A token on another line. -/
def Token.moved (f : Int → Int) (t : Token) : Token := { t with line := f t.line }

section Tokens

variable (f : Int → Int) (t : Token)

@[simp] theorem Token.kind_moved : (t.moved f).kind = t.kind := rfl

@[simp] theorem Token.lexeme_moved : (t.moved f).lexeme = t.lexeme := rfl

end Tokens

variable (ρ : Recasting)

def Reference.recast (r : Reference) : Reference := ⟨r.name.moved ρ.line, ρ.slot r.distance⟩

mutual

/-- An expression with other lines and slots. -/
def Expr.recast : Expr → Expr
  | .literal value => .literal value
  | .group inner => .group inner.recast
  | .unary operator operand => .unary (operator.moved ρ.line) operand.recast
  | .binary left operator right => .binary left.recast (operator.moved ρ.line) right.recast
  | .logical left operator right => .logical left.recast (operator.moved ρ.line) right.recast
  | .var target => .var (target.recast ρ)
  | .property object name => .property object.recast (name.moved ρ.line)
  | .assign target value => .assign (target.recast ρ) value.recast
  | .setProperty object name value => .setProperty object.recast (name.moved ρ.line) value.recast
  | .call callee paren arguments =>
    .call callee.recast (paren.moved ρ.line) (Expr.recastRow arguments)
  | .self keyword => .self (keyword.recast ρ)
  | .inherited keyword method => .inherited (keyword.recast ρ) (method.moved ρ.line)

def Expr.recastRow : List Expr → List Expr
  | [] => []
  | e :: es => e.recast :: Expr.recastRow es

end

mutual

/-- A statement with other lines and slots. -/
def Stmt.recast : Stmt → Stmt
  | .expression value => .expression (value.recast ρ)
  | .print value => .print (value.recast ρ)
  | .var name initializer => .var (name.moved ρ.line) (initializer.map (Expr.recast ρ))
  | .block body => .block (Stmt.recastRow body)
  | .branch condition yes no => .branch (condition.recast ρ) yes.recast (Stmt.recastOption no)
  | .loop condition body => .loop (condition.recast ρ) body.recast
  | .forLoop initializer condition increment body =>
    .forLoop (Stmt.recastOption initializer) (condition.map (Expr.recast ρ))
      (increment.map (Expr.recast ρ)) body.recast
  | .function declaration => .function declaration.recast
  | .return keyword value => .return (keyword.moved ρ.line) (value.map (Expr.recast ρ))
  | .class name superclass methods =>
    .class (name.moved ρ.line) (superclass.map (Reference.recast ρ)) (FunDecl.recastRow methods)

def Stmt.recastOption : Option Stmt → Option Stmt
  | none => none
  | some st => some st.recast

def Stmt.recastRow : List Stmt → List Stmt
  | [] => []
  | st :: rest => st.recast :: Stmt.recastRow rest

def FunDecl.recast : FunDecl → FunDecl
  | .mk name parameters body =>
    .mk (name.moved ρ.line) (parameters.map (Token.moved ρ.line)) body.recast

def FunDecl.recastRow : List FunDecl → List FunDecl
  | [] => []
  | d :: rest => d.recast :: FunDecl.recastRow rest

end

@[simp] theorem Expr.recastRow_eq_map (es : List Expr) : recastRow ρ es = es.map (recast ρ) := by
  induction es with
  | nil => rfl
  | cons e es ih => rw [recastRow, ih, List.map_cons]

@[simp] theorem Stmt.recastRow_eq_map (body : List Stmt) :
    recastRow ρ body = body.map (recast ρ) := by
  induction body with
  | nil => rfl
  | cons st rest ih => rw [recastRow, ih, List.map_cons]

@[simp] theorem Stmt.recastOption_eq_map (o : Option Stmt) :
    recastOption ρ o = o.map (recast ρ) := by
  cases o <;> rfl

@[simp] theorem FunDecl.recastRow_eq_map (fs : List FunDecl) :
    recastRow ρ fs = fs.map (recast ρ) := by
  induction fs with
  | nil => rfl
  | cons d rest ih => rw [recastRow, ih, List.map_cons]

section Tokens

variable (r : Reference) (d : FunDecl)

@[simp] theorem Reference.name_recast : (r.recast ρ).name = r.name.moved ρ.line := rfl

@[simp] theorem Reference.distance_recast : (r.recast ρ).distance = ρ.slot r.distance := rfl

@[simp] theorem FunDecl.name_recast : (d.recast ρ).name = d.name.moved ρ.line := by cases d; rfl

@[simp] theorem FunDecl.parameters_recast :
    (d.recast ρ).parameters = d.parameters.map (Token.moved ρ.line) := by cases d; rfl

@[simp] theorem FunDecl.arity_recast : (d.recast ρ).arity = d.arity := by
  rw [arity, parameters_recast, List.length_map, arity]

end Tokens

/-! ## Maps on bindings and stores -/

namespace Bindings

variable {α β : Type} (g : α → β) (b : Bindings α)

/-- Changes what the names are bound to. -/
def map : Bindings β := ⟨b.entries.map fun e ↦ (e.1, g e.2)⟩

@[simp] theorem map_empty : (empty : Bindings α).map g = empty := rfl

@[simp] theorem get?_map (name : String) : (b.map g).get? name = (b.get? name).map g := by
  obtain ⟨entries⟩ := b
  simp only [get?, map]
  induction entries with
  | nil => rfl
  | cons e rest ih =>
    rw [List.map_cons, findIn, findIn, ih]
    split <;> rfl

@[simp] theorem contains_map (name : String) : (b.map g).contains name = b.contains name := by
  rw [contains, get?_map, Option.isSome_map, contains]

@[simp] theorem insert_map (name : String) (a : α) :
    (b.map g).insert name (g a) = (b.insert name a).map g := by
  obtain ⟨entries⟩ := b
  simp only [insert, map]
  congr 1
  induction entries with
  | nil => rfl
  | cons e rest ih =>
    rw [List.map_cons, insertInto, insertInto]
    split
    · rfl
    · rw [ih]
      rfl

theorem map_ofList (entries : List (String × α)) :
    (ofList entries).map g = ofList (entries.map fun e ↦ (e.1, g e.2)) := by
  have hfold : ∀ b : Bindings α, (entries.foldl (fun b e ↦ b.insert e.1 e.2) b).map g
      = (entries.map fun e ↦ (e.1, g e.2)).foldl (fun b e ↦ b.insert e.1 e.2) (b.map g) := by
    induction entries with
    | nil => exact fun b ↦ rfl
    | cons e rest ih =>
      intro b
      rw [List.foldl_cons, ih, List.map_cons, List.foldl_cons, insert_map]
  exact hfold empty

end Bindings

namespace Store

variable {α β : Type} (g : α → β) (s : Store α) (env : Environment) (name : String)

/-- Changes what the names are bound to in all records. -/
def map : Store β := ⟨s.records.map fun b ↦ b.map g⟩

@[simp] theorem next_map : (s.map g).next = s.next := Array.size_map

@[simp] theorem record_map (id : RecordId) : (s.map g).record id = (s.record id).map g := by
  simp only [record, map, Array.getD_eq_getD_getElem?, Array.getElem?_map]
  cases s.records[id]? <;> rfl

@[simp] theorem push_map (b : Bindings α) : (s.map g).push (b.map g) = (s.push b).map g := by
  simp only [push, map, Array.map_push]

@[simp] theorem bind_map (id : RecordId) (a : α) :
    (s.map g).bind id name (g a) = (s.bind id name a).map g := by
  simp only [bind, map]
  congr 1
  apply Array.ext
  · simp
  · intro i hi hi'
    simp only [Array.getElem_modify, Array.getElem_map]
    split
    · rw [Bindings.insert_map]
    · rfl

@[simp] theorem define_map (a : α) :
    (s.map g).define env name (g a) = (s.define env name a).map g := by
  cases env with
  | nil => rfl
  | cons frame _ => exact bind_map g s name frame a

@[simp] theorem frameOf?_map : (s.map g).frameOf? env name = s.frameOf? env name := by
  simp only [frameOf?, record_map, Bindings.contains_map]

@[simp] theorem get?_map : (s.map g).get? env name = (s.get? env name).map g := by
  rw [get?, frameOf?_map, get?]
  cases s.frameOf? env name with
  | none => rfl
  | some frame => simp only [Option.bind_some, record_map, Bindings.get?_map]

theorem findAt_map (distance : Int) :
    (s.map g).findAt env distance name
      = (s.findAt env distance name).map fun found ↦ (found.1, g found.2) := by
  rw [findAt, findAt]
  cases env.ancestor distance with
  | error e => rfl
  | ok outer =>
    cases outer with
    | nil => rfl
    | cons frame rest =>
      simp only [Bind.bind, Except.bind, List.head?_cons, Option.bind_some, record_map,
        Bindings.get?_map]
      cases (s.record frame).get? name <;> rfl

theorem getAt_map (distance : Int) :
    (s.map g).getAt env distance name = (s.getAt env distance name).map g := by
  rw [getAt, findAt_map, getAt]
  cases s.findAt env distance name <;> rfl

end Store

/-! ## Values -/

def Closure.recast (c : Closure) : Closure := { c with declaration := c.declaration.recast ρ }

mutual

/-- A class with its methods recast, and those of the classes above it. -/
def Class.recast : Class → Class
  | ⟨id, name, superclass, methods, environment⟩ =>
    ⟨id, name, Class.recastOption superclass, methods.map (FunDecl.recast ρ), environment⟩

def Class.recastOption : Option Class → Option Class
  | none => none
  | some c => some c.recast

end

@[simp] theorem Class.recastOption_eq_map (o : Option Class) :
    recastOption ρ o = o.map (recast ρ) := by
  cases o <;> rfl

def Instance.recast (i : Instance) : Instance := { i with «class» := i.class.recast ρ }

/-- A value with everything that it holds of a program recast. -/
def Value.recast : Value → Value
  | function c => function (c.recast ρ)
  | «class» c => «class» (c.recast ρ)
  | «instance» i => «instance» (i.recast ρ)
  | v => v

namespace Class

variable (c : Class)

@[simp] theorem id_recast : (c.recast ρ).id = c.id := by cases c; rfl

@[simp] theorem name_recast : (c.recast ρ).name = c.name := by cases c; rfl

@[simp] theorem findMethod?_recast (name : String) :
    (c.recast ρ).findMethod? name = (c.findMethod? name).map fun m ↦ (m.1.recast ρ, m.2) := by
  fun_induction findMethod? c name with
  | case1 id className superclass methods environment name m hm =>
    simp only [recast, findMethod?.eq_def, Bindings.get?_map, hm, Option.map_some]
  | case2 id className methods environment name hm =>
    simp only [recast, recastOption, findMethod?.eq_def, Bindings.get?_map, hm, Option.map_none]
  | case3 id className methods environment name hm c ih =>
    rw [recast, recastOption, findMethod?.eq_def]
    simp only [Bindings.get?_map, hm, Option.map_none]
    exact ih

@[simp] theorem arity_recast : (c.recast ρ).arity = c.arity := by
  rw [arity, findMethod?_recast, arity]
  cases c.findMethod? initializerName with
  | none => rfl
  | some m => exact FunDecl.arity_recast ρ m.1

end Class

namespace Value

variable (v w : Value)

@[simp] theorem isTruthy_recast : (v.recast ρ).isTruthy = v.isTruthy := by cases v <;> rfl

@[simp] theorem text_recast : (v.recast ρ).text = v.text := by
  cases v with
  | function c => simp only [recast, text, Closure.recast, FunDecl.name_recast, Token.lexeme_moved]
  | «class» c => exact Class.name_recast ρ c
  | «instance» i => simp only [recast, text, Instance.recast, Class.name_recast]
  | _ => rfl

@[simp] theorem isEqual_recast : (v.recast ρ).isEqual (w.recast ρ) = v.isEqual w := by
  cases v <;> cases w <;>
    simp only [recast, isEqual, Closure.recast, Class.id_recast, Instance.recast]

@[simp] theorem signature?_recast : (v.recast ρ).signature? = v.signature? := by
  cases v with
  | function c =>
    simp only [recast, signature?, Closure.recast, FunDecl.name_recast, Token.lexeme_moved,
      FunDecl.arity_recast]
  | «class» c => simp only [recast, signature?, Class.name_recast, Class.arity_recast]
  | _ => rfl

end Value

@[simp] theorem Literal.toValue_recast (l : Literal) : l.toValue.recast ρ = l.toValue := by
  cases l <;> rfl

/-! ## Machines -/

/-- An issue about a token on another line. -/
def Issue.moved (f : Int → Int) (i : Issue) : Issue := { i with line := i.line.map f }

def Interrupt.recast : Interrupt → Interrupt
  | returning v => returning (v.recast ρ)
  | issue i => issue (i.moved ρ.line)
  | i => i

/-- A machine with everything that it holds of programs recast. -/
def Machine.recast (M : Machine) : Machine :=
  { M with
    frames := M.frames.map (Value.recast ρ)
    objects := M.objects.map (Value.recast ρ) }

end Lox
