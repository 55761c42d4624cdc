import Lox.Proofs.Lines.Moved
import Lox.Proofs.Recasting.Evaluation

/-!
# Lines that know where they come from

A program meets functions and classes on its machine that were declared by programs before it. So
that their lines can be told from those of the program at hand, the former are made even and the
latter odd. One run with such lines shows at once what happens on whatever lines the program is.
-/

namespace Lox

/-- A line with a mark that says whether it is one of the program at hand. -/
def marked (own : Bool) (line : Int) : Int := 2 * line + own.toNat

/-- The line that a mark stands on, where the lines of the program at hand are changed by `f`. -/
def unmarked (f : Int → Int) (line : Int) : Int := if line % 2 = 1 then f (line / 2) else line / 2

variable (f : Int → Int)

theorem unmarked_comp_own : unmarked f ∘ marked true = f := by
  funext line
  have hmark : (marked true line) % 2 = 1 ∧ marked true line / 2 = line := by
    rw [marked, Bool.toNat_true]
    omega
  rw [Function.comp_apply, unmarked, if_pos hmark.1, hmark.2]

theorem unmarked_comp_other : unmarked f ∘ marked false = id := by
  funext line
  have hmark : ¬ (marked false line) % 2 = 1 ∧ marked false line / 2 = line := by
    rw [marked, Bool.toNat_false]
    omega
  rw [Function.comp_apply, unmarked, if_neg hmark.1, hmark.2, id]

/-- On which line an issue is, is the business of the program at hand, or it is not. -/
theorem Issue.exists_own (i : Issue) : ∃ own : Bool, ∀ f : Int → Int,
    i.moved (unmarked f) = (i.moved (unmarked id)).moved (if own then f else id) := by
  obtain ⟨cause, line⟩ := i
  cases line with
  | none => exact ⟨false, fun _ ↦ rfl⟩
  | some line =>
    by_cases hown : line % 2 = 1
    · refine ⟨true, fun f ↦ ?_⟩
      simp [moved, unmarked, hown]
    · refine ⟨false, fun f ↦ ?_⟩
      simp [moved, unmarked, hown]

/-- A program does the same on other lines. -/
theorem moves_run (f : Int → Int) (before : List String) (host : Host) (program : List Stmt) :
    Mirrors (Machine.moved f before) (Interrupt.moved f) id (Eval.run host program)
      (Eval.run host (program.map (Stmt.moved f))) := by
  rw [Eval.run, Eval.run]
  exact .forM fun st _ ↦ Task.recasts_run f before (.inl rfl) host.nesting (.execute st)

/-- There is one outcome with marks of which every outcome on other lines is the image, whatever has
been printed before. -/
theorem exists_marked_run (host : Host) (program : List Stmt) (M : Machine) :
    ∃ outcome, ∀ f before, Eval.run host (program.map (Stmt.moved f)) (M.moved id before)
      = carried (Machine.moved (unmarked f) before) (Interrupt.moved (unmarked f)) id outcome := by
  -- The program is marked as its own and the machine as other, with nothing printed so far.
  refine ⟨Eval.run host (program.map (Stmt.moved (marked true))) (M.moved (marked false) []),
    fun f before ↦ ?_⟩
  have hmoves := moves_run (unmarked f) before host (program.map (Stmt.moved (marked true)))
    (M.moved (marked false) [])
  have hprogram : (program.map (Stmt.moved (marked true))).map (Stmt.moved (unmarked f))
      = program.map (Stmt.moved f) := by
    rw [List.map_map]
    refine List.map_congr_left fun st _ ↦ ?_
    rw [Function.comp_apply, Stmt.moved_moved, unmarked_comp_own]
  rw [hprogram, Machine.moved_moved, unmarked_comp_other, List.nil_append] at hmoves
  exact hmoves

end Lox
