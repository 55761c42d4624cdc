import Lox.Proofs.Scoping.Shape
import Lox.Proofs.Syntax.Drawn

/-!
# The shape of what is parsed

Whatever the parser builds is of the shape that resolving names relies on, whether it has complained
about something or not. All of that comes from the tokens, which are spelled as their kinds ask for
and from which the tree is drawn.
-/

namespace Lox

theorem Expr.Drawn.shaped {e : Expr} (h : e.Drawn Token.Genuine) : e.Shaped := by
  induction h with
  | literal _ _ => exact .literal
  | group _ ih => exact .group ih
  | unary _ _ _ ih => exact .unary ih
  | binary _ _ _ _ ihLeft ihRight => exact .binary ihLeft ihRight
  | logical _ _ _ _ ihLeft ihRight => exact .logical ihLeft ihRight
  | var hname hkind => exact .var (hname.ordinary hkind)
  | property _ _ _ ih => exact .property ih
  | assign hname hkind _ ih => exact .assign (hname.ordinary hkind) ih
  | setProperty _ _ _ _ ihObject ihValue => exact .setProperty ihObject ihValue
  | call _ _ _ _ ihCallee ihArguments => exact .call ihCallee ihArguments
  | self hkeyword hkind => exact .self (hkeyword.self hkind)
  | inherited hkeyword hkind _ _ => exact .inherited (hkeyword.inherited hkind)

/-- An expression that may be absent. -/
theorem Expr.Drawn.shaped_option {o : Option Expr}
    (h : ∀ e ∈ o, e.Drawn Token.Genuine) : ∀ e ∈ o, e.Shaped := fun e he ↦ (h e he).shaped

mutual

theorem Stmt.Drawn.shaped {st : Stmt} : st.Drawn Token.Genuine → st.Shaped true
  | .expression hvalue => .expression hvalue.shaped
  | .print hvalue => .print hvalue.shaped
  | .var hname hkind hinitializer =>
    .var (hname.ordinary hkind) (Expr.Drawn.shaped_option hinitializer)
  | .block hbody => .block fun st hst ↦ Stmt.Drawn.shaped (hbody st hst)
  | .branch hcondition hyes hplain hno hplain' =>
    .branch hcondition.shaped (Stmt.Drawn.shaped hyes)
      (Stmt.declared?_eq_none_iff.mpr hplain) (fun st hst ↦ Stmt.Drawn.shaped (hno st hst))
      fun st hst ↦ Stmt.declared?_eq_none_iff.mpr (hplain' st hst)
  | .loop hcondition hbody hplain =>
    .loop hcondition.shaped (Stmt.Drawn.shaped hbody)
      (Stmt.declared?_eq_none_iff.mpr hplain)
  | .forLoop hinitializer hcondition hincrement hbody hplain =>
    .forLoop (fun st hst ↦ Stmt.Drawn.shaped (hinitializer st hst))
      (Expr.Drawn.shaped_option hcondition) (Expr.Drawn.shaped_option hincrement)
      (Stmt.Drawn.shaped hbody) (Stmt.declared?_eq_none_iff.mpr hplain)
  | .function hf => .function (FunDecl.Drawn.shaped hf).1 (FunDecl.Drawn.shaped hf).2
  | .return _ _ hvalue => .return (Expr.Drawn.shaped_option hvalue)
  | .class hname hkind hsuperclass hmethods =>
    .class (hname.ordinary hkind)
      (fun r hr ↦ (hsuperclass r hr).1.ordinary (hsuperclass r hr).2.1)
      fun f hf ↦ (FunDecl.Drawn.shaped (hmethods f hf)).2

theorem FunDecl.Drawn.shaped {f : FunDecl} :
    f.Drawn Token.Genuine → Ordinary f.name.lexeme ∧ f.Shaped
  | .mk hname hkind hparameters hbody hplain =>
    ⟨hname.ordinary hkind, .mk
      (fun p hp ↦ (hparameters p hp).1.ordinary (hparameters p hp).2)
      (Stmt.Drawn.shaped hbody) (Stmt.declared?_eq_none_iff.mpr hplain)⟩

end

/-- Whatever is parsed from a source text is of the shape that resolving names relies on, whether
something was complained about or not. -/
theorem shaped_of_parseProgram {nesting : Nat} {source : String} {program : List Stmt}
    (h : (parseProgram nesting (scan source).tokens (scan source).finish).result = .ok program) :
    ∀ st ∈ program, st.Shaped true := fun st hst ↦
  (drawn_of_parseProgram rfl (fun _ ht ↦ genuine_of_mem_scan ht) h st hst).shaped

end Lox
