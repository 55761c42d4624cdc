import Lox.Proofs.Recasting.Twice

/-!
# References with identities

Two references may be alike in everything that can be read of them and yet be two. To tell them
apart, each reference of a program gets a number of its own, its identity, and the slot that the
distance would stand in holds it. The numbers are given out in the order in which the resolver meets
the references, from any number on. So those of a program are all the numbers of a range, and two
programs whose ranges do not overlap have no reference in common.
-/

namespace Lox

/-! ## Counting references -/

mutual

/-- The number of references in an expression. -/
def Expr.uses : Expr → Nat
  | .literal _ => 0
  | .group inner | .unary _ inner | .property inner _ => inner.uses
  | .binary left _ right | .logical left _ right => left.uses + right.uses
  | .var _ | .self _ | .inherited _ _ => 1
  | .assign _ value => value.uses + 1
  | .setProperty object _ value => value.uses + object.uses
  | .call callee _ arguments => callee.uses + Expr.usesRow arguments

def Expr.usesRow : List Expr → Nat
  | [] => 0
  | e :: es => e.uses + Expr.usesRow es

end

/-- The number of references in an expression that may be absent. -/
def Expr.usesOption (e : Option Expr) : Nat := e.elim 0 Expr.uses

mutual

/-- The number of references in a statement. -/
def Stmt.uses : Stmt → Nat
  | .expression value | .print value => value.uses
  | .var _ initializer => Expr.usesOption initializer
  | .block body => Stmt.usesRow body
  | .branch condition yes no => condition.uses + yes.uses + Stmt.usesOption no
  | .loop condition body => condition.uses + body.uses
  | .forLoop initializer condition increment body =>
    Stmt.usesOption initializer + Expr.usesOption condition + body.uses + Expr.usesOption increment
  | .function f => f.uses
  | .return _ value => Expr.usesOption value
  | .class _ superclass methods => superclass.elim 0 (fun _ ↦ 1) + FunDecl.usesRow methods

def Stmt.usesOption : Option Stmt → Nat
  | none => 0
  | some st => st.uses

def Stmt.usesRow : List Stmt → Nat
  | [] => 0
  | st :: rest => st.uses + Stmt.usesRow rest

def FunDecl.uses : FunDecl → Nat
  | .mk _ _ body => body.uses

def FunDecl.usesRow : List FunDecl → Nat
  | [] => 0
  | f :: rest => f.uses + FunDecl.usesRow rest

end

/-! ## Giving out identities -/

/-- A reference with an identity. -/
def Reference.keyed (k : Nat) (r : Reference) : Reference := ⟨r.name, some k⟩

mutual

/-- An expression whose references have identities, from a number on. -/
def Expr.keyed (k : Nat) : Expr → Expr
  | .literal value => .literal value
  | .group inner => .group (inner.keyed k)
  | .unary operator operand => .unary operator (operand.keyed k)
  | .binary left operator right =>
    .binary (left.keyed k) operator (right.keyed (k + left.uses))
  | .logical left operator right =>
    .logical (left.keyed k) operator (right.keyed (k + left.uses))
  | .var target => .var (target.keyed k)
  | .property object name => .property (object.keyed k) name
  | .assign target value => .assign (target.keyed (k + value.uses)) (value.keyed k)
  | .setProperty object name value =>
    .setProperty (object.keyed (k + value.uses)) name (value.keyed k)
  | .call callee paren arguments =>
    .call (callee.keyed k) paren (Expr.keyedRow (k + callee.uses) arguments)
  | .self keyword => .self (keyword.keyed k)
  | .inherited keyword method => .inherited (keyword.keyed k) method

def Expr.keyedRow (k : Nat) : List Expr → List Expr
  | [] => []
  | e :: es => e.keyed k :: Expr.keyedRow (k + e.uses) es

end

mutual

/-- A statement whose references have identities, from a number on. -/
def Stmt.keyed (k : Nat) : Stmt → Stmt
  | .expression value => .expression (value.keyed k)
  | .print value => .print (value.keyed k)
  | .var name initializer => .var name (initializer.map (Expr.keyed k))
  | .block body => .block (Stmt.keyedRow k body)
  | .branch condition yes no =>
    .branch (condition.keyed k) (yes.keyed (k + condition.uses))
      (Stmt.keyedOption (k + condition.uses + yes.uses) no)
  | .loop condition body => .loop (condition.keyed k) (body.keyed (k + condition.uses))
  | .forLoop initializer condition increment body =>
    let behindInitializer := k + Stmt.usesOption initializer
    let behindCondition := behindInitializer + Expr.usesOption condition
    .forLoop (Stmt.keyedOption k initializer) (condition.map (Expr.keyed behindInitializer))
      (increment.map (Expr.keyed (behindCondition + body.uses))) (body.keyed behindCondition)
  | .function f => .function (f.keyed k)
  | .return keyword value => .return keyword (value.map (Expr.keyed k))
  | .class name superclass methods =>
    .class name (superclass.map (Reference.keyed k))
      (FunDecl.keyedRow (k + superclass.elim 0 fun _ ↦ 1) methods)

def Stmt.keyedOption (k : Nat) : Option Stmt → Option Stmt
  | none => none
  | some st => some (st.keyed k)

def Stmt.keyedRow (k : Nat) : List Stmt → List Stmt
  | [] => []
  | st :: rest => st.keyed k :: Stmt.keyedRow (k + st.uses) rest

def FunDecl.keyed (k : Nat) : FunDecl → FunDecl
  | .mk name parameters body => .mk name parameters (body.keyed k)

def FunDecl.keyedRow (k : Nat) : List FunDecl → List FunDecl
  | [] => []
  | f :: rest => f.keyed k :: FunDecl.keyedRow (k + f.uses) rest

end

/-! ## Recasting a program with identities -/

section Range

variable {φ : Option Nat → Option Nat}

/-- Every number of a range, as what a slot holds, stays what it is. -/
def FixesRange (φ : Option Nat → Option Nat) (k uses : Nat) : Prop :=
  ∀ i, k ≤ i → i < k + uses → φ (some i) = some i

theorem FixesRange.left {k m n : Nat} (h : FixesRange φ k (m + n)) : FixesRange φ k m :=
  fun i hle hlt ↦ h i hle (by omega)

theorem FixesRange.right {k m n : Nat} (h : FixesRange φ k (m + n)) : FixesRange φ (k + m) n :=
  fun i hle hlt ↦ h i (by omega) (by omega)

theorem Reference.recast_keyed {k : Nat} (h : FixesRange φ k 1) (r : Reference) :
    (r.keyed k).recast (.slots φ) = r.keyed k :=
  congrArg (Reference.mk r.name) (h k (Nat.le_refl k) (Nat.lt_succ_self k))

mutual

theorem Expr.recast_keyed : ∀ (e : Expr) {k : Nat}, FixesRange φ k e.uses →
    (e.keyed k).recast (.slots φ) = e.keyed k
  | .literal _, _, _ => rfl
  | .group e, _, h | .unary _ e, _, h | .property e _, _, h => by
    simp only [keyed, recast, recast_keyed e h, Token.moved_id]
  | .binary left _ right, _, h | .logical left _ right, _, h => by
    simp only [keyed, recast, recast_keyed left h.left, recast_keyed right h.right, Token.moved_id]
  | .var target, _, h => congrArg Expr.var (target.recast_keyed h)
  | .self keyword, _, h => congrArg Expr.self (keyword.recast_keyed h)
  | .inherited keyword method, _, h =>
    congrArg (Expr.inherited · method) (keyword.recast_keyed h)
  | .assign target value, _, h => by
    simp only [keyed, recast, recast_keyed value h.left, Reference.recast_keyed h.right]
  | .setProperty object _ value, _, h => by
    simp only [keyed, recast, recast_keyed value h.left, recast_keyed object h.right,
      Token.moved_id]
  | .call callee _ arguments, _, h => by
    simp only [keyed, recast, recast_keyed callee h.left, recastRow_keyedRow arguments h.right,
      Token.moved_id]

theorem Expr.recastRow_keyedRow : ∀ (es : List Expr) {k : Nat}, FixesRange φ k (Expr.usesRow es) →
    Expr.recastRow (.slots φ) (Expr.keyedRow k es) = Expr.keyedRow k es
  | [], _, _ => rfl
  | e :: es, _, h => by
    simp only [keyedRow, recastRow, recast_keyed e h.left, recastRow_keyedRow es h.right]

end

theorem Expr.recastOption_keyed (o : Option Expr) {k : Nat}
    (h : FixesRange φ k (Expr.usesOption o)) :
    (o.map (Expr.keyed k)).map (Expr.recast (.slots φ)) = o.map (Expr.keyed k) := by
  cases o with
  | none => rfl
  | some e => exact congrArg some (e.recast_keyed h)

mutual

theorem Stmt.recast_keyed : ∀ (st : Stmt) {k : Nat}, FixesRange φ k st.uses →
    (st.keyed k).recast (.slots φ) = st.keyed k
  | .expression e, _, h | .print e, _, h => by
    simp only [Stmt.keyed, Stmt.recast, Expr.recast_keyed e h]
  | .var _ o, _, h | .return _ o, _, h => by
    simp only [Stmt.keyed, Stmt.recast, Expr.recastOption_keyed o h, Token.moved_id]
  | .block body, _, h => by
    simp only [Stmt.keyed, Stmt.recast, Stmt.recastRow_keyedRow body h]
  | .branch condition yes no, k, h => by
    have hyes : FixesRange φ (k + condition.uses) yes.uses := h.left.right
    have hno : FixesRange φ (k + condition.uses + yes.uses) (Stmt.usesOption no) := by
      rw [Nat.add_assoc]
      exact h.right
    simp only [Stmt.keyed, Stmt.recast, Expr.recast_keyed condition h.left.left,
      Stmt.recast_keyed yes hyes, Stmt.recastOption_keyedOption no hno]
  | .loop condition body, _, h => by
    simp only [Stmt.keyed, Stmt.recast, Expr.recast_keyed condition h.left,
      Stmt.recast_keyed body h.right]
  | .forLoop initializer condition increment body, k, h => by
    have hcondition := h.left.left.right
    have hbody := h.left.right
    have hincrement := h.right
    simp only [← Nat.add_assoc] at hbody hincrement
    simp only [Stmt.keyed, Stmt.recast,
      Stmt.recastOption_keyedOption initializer h.left.left.left,
      Expr.recastOption_keyed condition hcondition, Stmt.recast_keyed body hbody,
      Expr.recastOption_keyed increment hincrement]
  | .function f, _, h => by simp only [Stmt.keyed, Stmt.recast, FunDecl.recast_keyed f h]
  | .class _ none methods, _, h => by
    simp only [Stmt.keyed, Stmt.recast, FunDecl.recastRow_keyedRow methods h.right, Token.moved_id,
      Option.map_none]
  | .class _ (some r) methods, _, h => by
    simp only [Stmt.keyed, Stmt.recast, FunDecl.recastRow_keyedRow methods h.right, Token.moved_id,
      Option.map_some, Reference.recast_keyed h.left]

theorem Stmt.recastOption_keyedOption : ∀ (o : Option Stmt) {k : Nat},
    FixesRange φ k (Stmt.usesOption o) →
    Stmt.recastOption (.slots φ) (Stmt.keyedOption k o) = Stmt.keyedOption k o
  | none, _, _ => rfl
  | some st, _, h => by simp only [Stmt.keyedOption, Stmt.recastOption, Stmt.recast_keyed st h]

theorem Stmt.recastRow_keyedRow : ∀ (body : List Stmt) {k : Nat},
    FixesRange φ k (Stmt.usesRow body) →
    Stmt.recastRow (.slots φ) (Stmt.keyedRow k body) = Stmt.keyedRow k body
  | [], _, _ => rfl
  | st :: rest, _, h => by
    simp only [Stmt.keyedRow, Stmt.recastRow, Stmt.recast_keyed st h.left,
      Stmt.recastRow_keyedRow rest h.right]

theorem FunDecl.recast_keyed : ∀ (f : FunDecl) {k : Nat}, FixesRange φ k f.uses →
    (f.keyed k).recast (.slots φ) = f.keyed k
  | .mk _ parameters body, _, h => by
    have hparameters : parameters.map (Token.moved id) = parameters := List.map_id parameters
    simp only [FunDecl.keyed, FunDecl.recast, Stmt.recast_keyed body h, hparameters, Token.moved_id]

theorem FunDecl.recastRow_keyedRow : ∀ (fs : List FunDecl) {k : Nat},
    FixesRange φ k (FunDecl.usesRow fs) →
    FunDecl.recastRow (.slots φ) (FunDecl.keyedRow k fs) = FunDecl.keyedRow k fs
  | [], _, _ => rfl
  | f :: rest, _, h => by
    simp only [FunDecl.keyedRow, FunDecl.recastRow, FunDecl.recast_keyed f h.left,
      FunDecl.recastRow_keyedRow rest h.right]

end

end Range

/-! ## Forgetting identities -/

/-- All slots become empty. -/
abbrev Recasting.blank : Recasting := .slots fun _ ↦ none

mutual

theorem Expr.blank_keyed : ∀ (e : Expr) (k : Nat), (e.keyed k).recast .blank = e.recast .blank
  | .literal _, _ | .var _, _ | .self _, _ | .inherited _ _, _ => rfl
  | .group e, _ | .unary _ e, _ | .property e _, _ => by
    simp only [keyed, recast, blank_keyed e]
  | .assign _ value, _ => congrArg (Expr.assign _) (blank_keyed value _)
  | .binary left _ right, _ | .logical left _ right, _ | .setProperty left _ right, _ => by
    simp only [keyed, recast, blank_keyed left, blank_keyed right]
  | .call callee _ arguments, _ => by
    simp only [keyed, recast, blank_keyed callee, blank_keyedRow arguments]

theorem Expr.blank_keyedRow : ∀ (es : List Expr) (k : Nat),
    Expr.recastRow .blank (Expr.keyedRow k es) = Expr.recastRow .blank es
  | [], _ => rfl
  | e :: es, _ => by simp only [keyedRow, recastRow, blank_keyed e, blank_keyedRow es]

end

theorem Expr.blank_keyedOption (o : Option Expr) (k : Nat) :
    (o.map (Expr.keyed k)).map (Expr.recast .blank) = o.map (Expr.recast .blank) := by
  cases o with
  | none => rfl
  | some e => exact congrArg some (e.blank_keyed k)

mutual

theorem Stmt.blank_keyed : ∀ (st : Stmt) (k : Nat), (st.keyed k).recast .blank = st.recast .blank
  | .expression e, _ | .print e, _ => by simp only [Stmt.keyed, Stmt.recast, Expr.blank_keyed]
  | .var _ o, _ | .return _ o, _ => by simp only [Stmt.keyed, Stmt.recast, Expr.blank_keyedOption]
  | .block body, _ => by simp only [Stmt.keyed, Stmt.recast, Stmt.blank_keyedRow body]
  | .branch _ yes no, _ => by
    simp only [Stmt.keyed, Stmt.recast, Expr.blank_keyed, Stmt.blank_keyed yes,
      Stmt.blank_keyedOption no]
  | .loop _ body, _ => by
    simp only [Stmt.keyed, Stmt.recast, Expr.blank_keyed, Stmt.blank_keyed body]
  | .forLoop initializer _ _ body, _ => by
    simp only [Stmt.keyed, Stmt.recast, Stmt.blank_keyedOption initializer, Expr.blank_keyedOption,
      Stmt.blank_keyed body]
  | .function f, _ => by simp only [Stmt.keyed, Stmt.recast, FunDecl.blank_keyed f]
  | .class _ superclass methods, _ => by
    simp only [Stmt.keyed, Stmt.recast, FunDecl.blank_keyedRow methods]
    cases superclass <;> rfl

theorem Stmt.blank_keyedOption : ∀ (o : Option Stmt) (k : Nat),
    Stmt.recastOption .blank (Stmt.keyedOption k o) = Stmt.recastOption .blank o
  | none, _ => rfl
  | some st, _ => by simp only [Stmt.keyedOption, Stmt.recastOption, Stmt.blank_keyed st]

theorem Stmt.blank_keyedRow : ∀ (body : List Stmt) (k : Nat),
    Stmt.recastRow .blank (Stmt.keyedRow k body) = Stmt.recastRow .blank body
  | [], _ => rfl
  | st :: rest, _ => by
    simp only [Stmt.keyedRow, Stmt.recastRow, Stmt.blank_keyed st, Stmt.blank_keyedRow rest]

theorem FunDecl.blank_keyed : ∀ (f : FunDecl) (k : Nat),
    (f.keyed k).recast .blank = f.recast .blank
  | .mk _ _ body, _ => by simp only [FunDecl.keyed, FunDecl.recast, Stmt.blank_keyed body]

theorem FunDecl.blank_keyedRow : ∀ (fs : List FunDecl) (k : Nat),
    FunDecl.recastRow .blank (FunDecl.keyedRow k fs) = FunDecl.recastRow .blank fs
  | [], _ => rfl
  | f :: rest, _ => by
    simp only [FunDecl.keyedRow, FunDecl.recastRow, FunDecl.blank_keyed f,
      FunDecl.blank_keyedRow rest]

end

end Lox
