import Lox.Analysis
import Lox.Proofs.Outlines.Faithful

/-!
# Truncation

A syntax tree that comes out of the parser, a program or a single expression, is shown down to some
depth. The components that are shown do not depend on the depth: a smaller depth only cuts, and it
does so if and only if there is something to cut. What is shown without a mark tells the tree.
-/

namespace Lox

/-- What a parser can return. -/
inductive Tree where
  | program (body : List Stmt)
  | expression (e : Expr)

namespace Tree

/-- A tree as it is shown down to some depth. Nothing is shown at a negative one. -/
def outline (depth : Int) : Tree → Document
  | program body => Stmt.outlines (Outline.levels depth) body
  | expression e => e.outline (Outline.levels depth)

def component : Tree → Component
  | program body => .row (Stmt.components body)
  | expression e => e.component

/-- A tree that some source text is parsed to, with whatever bound on nesting. That the text is
complained about does not matter as long as there is a tree. -/
inductive IsParsed : Tree → Prop
  | program (nesting : Nat) (source : String) {body : List Stmt} :
      (parseProgram nesting (scan source).tokens (scan source).finish).result = .ok body →
      IsParsed (program body)
  | expression (nesting : Nat) (source : String) {e : Expr} :
      (parseExpression nesting (scan source).tokens (scan source).finish).result = .ok e →
      IsParsed (expression e)

theorem outline_eq (depth : Int) (t : Tree) :
    t.outline depth = t.component.outline (Outline.levels depth) := by
  cases t with
  | program body => exact Stmt.outlines_eq _ body
  | expression e => exact Expr.outline_eq _ e

theorem levels_mono {m n : Int} (h : m ≤ n) : Outline.levels m ≤ Outline.levels n :=
  Int.toNat_le_toNat (Int.add_le_add_right h 1)

theorem component_injective {t t' : Tree} (h : t.IsParsed) (h' : t'.IsParsed)
    (heq : t.component = t'.component) : t = t' := by
  have hbare : ∀ {source : String}, ∀ t ∈ (scan source).tokens, t.Bare :=
    fun _ ht ↦ bare_of_mem_scan ht
  cases h with
  | program _ _ h =>
    have hdrawn := drawn_of_parseProgram rfl hbare h
    cases h' with
    | program _ _ h' =>
      have hdrawn' := drawn_of_parseProgram rfl hbare h'
      simp only [component, Component.row.injEq, Stmt.components_eq_map] at heq
      rw [Component.eq_of_map_eq (fun st hst st' hst' ↦
        Stmt.component_injective (hdrawn st hst) (hdrawn' st' hst')) heq]
    | @expression _ _ e _ => cases e <;> cases heq
  | @expression _ _ e h =>
    have hdrawn := drawn_of_parseExpression rfl hbare h
    cases h' with
    | program _ _ _ => cases e <;> cases heq
    | expression _ _ h' =>
      rw [Expr.component_injective hdrawn (drawn_of_parseExpression rfl hbare h') heq]

/-- A tree that comes out of the parser is shown consistently and exactly. Cutting what is shown
down to some depth yields what is shown down to a smaller one. There is a mark if and only if some
component lies deeper than the depth. Two trees that are shown alike, and without a mark, are the
same. -/
theorem outline_exact {t : Tree} (h : t.IsParsed) :
    (∀ m n : Int, m ≤ n → (t.outline n).cut (Outline.levels m) = t.outline m) ∧
    (∀ depth : Int, Document.truncated.OccursIn (t.outline depth) ↔
      ∃ (d : Nat) (part : Component), part.LiesAt d t.component ∧ depth < d) ∧
    ∀ t' : Tree, t'.IsParsed → ∀ depth depth' : Int, t.outline depth = t'.outline depth' →
      ¬ Document.truncated.OccursIn (t.outline depth) → t = t' := by
  refine ⟨fun m n hle ↦ ?_, fun depth ↦ ?_, fun t' h' depth depth' heq hwhole ↦ ?_⟩
  · rw [outline_eq, outline_eq, Component.cut_outline (levels_mono hle)]
  · rw [outline_eq, Component.truncated_in_outline]
    refine exists_congr fun d ↦ exists_congr fun part ↦ and_congr_right fun _ ↦ ?_
    rw [Outline.levels]
    omega
  · rw [outline_eq] at heq hwhole
    rw [outline_eq] at heq
    exact component_injective h h' (Component.outline_injective hwhole heq)

/-- The constant in `!nil` lies two levels below the whole. -/
theorem outline_exact_not :
    let t : Tree := expression (.unary ⟨.bang, "!", .nil, 1⟩ (.literal .nil))
    t.IsParsed ∧ (t.outline 2).cut (Outline.levels 1) = t.outline 1 ∧
      Document.truncated.OccursIn (t.outline 1) ∧ ¬ Document.truncated.OccursIn (t.outline 2) := by
  intro t
  have htokens : (scan "!nil").tokens = [⟨.bang, "!", .nil, 1⟩, ⟨.nil, "nil", .nil, 1⟩] := by
    decide +kernel
  have hfinish : (scan "!nil").finish = ⟨.eof, "", .nil, 1⟩ := by decide +kernel
  have hparsed : t.IsParsed := .expression 60 "!nil" (by rw [htokens, hfinish]; rfl)
  obtain ⟨hcut, hmark, -⟩ := outline_exact hparsed
  refine ⟨hparsed, hcut 1 2 (by decide), (hmark 1).mpr ⟨2, .leaf .nil, ?_, by decide⟩, fun h ↦ ?_⟩
  · exact .field (List.mem_cons_of_mem _ List.mem_cons_self) (.field List.mem_cons_self .root)
  · obtain ⟨d, part, hlies, hdeep⟩ := (hmark 2).mp h
    simp only [t, component, Expr.component, Token.component] at hlies
    obtain ⟨⟩ | ⟨⟩ | ⟨hfield, hlies⟩ := hlies
    · contradiction
    simp only [List.mem_cons, List.not_mem_nil, or_false] at hfield
    rcases hfield with rfl | rfl
    · cases hlies; contradiction
    · obtain ⟨⟩ | ⟨⟩ | ⟨hfield, hlies⟩ := hlies
      · contradiction
      simp only [List.mem_cons, List.not_mem_nil, or_false] at hfield
      subst hfield
      cases hlies
      contradiction

end Tree

end Lox
