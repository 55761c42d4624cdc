import Lox.Proofs.Recasting.Twice

/-!
# The same program on other lines

Nothing but an error message makes use of the line of a token. Here the lines of a program are
changed by any function whatsoever, and with them those of everything that a program leaves behind
on a machine. A machine on other lines may also have printed something before.
-/

namespace Lox

variable (f g : Int → Int)

abbrev Reference.moved : Reference → Reference := Reference.recast (.lines f)

/-- An expression with its tokens on other lines. -/
abbrev Expr.moved : Expr → Expr := Expr.recast (.lines f)

/-- A statement with its tokens on other lines. -/
abbrev Stmt.moved : Stmt → Stmt := Stmt.recast (.lines f)

abbrev FunDecl.moved : FunDecl → FunDecl := FunDecl.recast (.lines f)

/-- A value with everything that it holds of a program on other lines. -/
abbrev Value.moved : Value → Value := Value.recast (.lines f)

abbrev Interrupt.moved : Interrupt → Interrupt := Interrupt.recast (.lines f)

/-- A machine on which all lines are others, and which has printed something before. -/
def Machine.moved (before : List String) (M : Machine) : Machine :=
  { M.recast (.lines f) with printed := M.printed ++ before }

theorem Stmt.moved_moved (st : Stmt) : (st.moved f).moved g = st.moved (g ∘ f) :=
  st.recast_recast (.lines f) (.lines g)

theorem Stmt.moved_id (st : Stmt) : st.moved id = st := st.recast_same

theorem Machine.moved_moved (before later : List String) (M : Machine) :
    (M.moved f before).moved g later = M.moved (g ∘ f) (before ++ later) := by
  have hvalue : Value.moved g ∘ Value.moved f = Value.moved (g ∘ f) :=
    funext fun v ↦ v.recast_recast (.lines f) (.lines g)
  simp only [moved, recast, Store.map_map, hvalue, List.append_assoc]

theorem Machine.moved_id (M : Machine) : M.moved id [] = M := by
  simp only [moved, recast, Store.map_id Value.recast_same, List.append_nil]

end Lox
