import Lox.Proofs.Lexing.Longest
import Lox.Proofs.Prompt.Answers
import Lox.Proofs.Syntax.RoundTrip.Expression

/-!
# Lines that are passed over in silence

A sum of many ones is parsed in a loop, so it is an expression whatever the number of its terms is,
once the parser gets to the bottom of its levels. The tree has a level for each term. So where there
are more terms than the host admits nested calls, the prompt evaluates the line, finds it too deep,
and shows nothing.
-/

namespace Lox.Prompt

/-- The sum of one more ones than the number says. -/
def sumOfOnes (count : Nat) : String :=
  String.ofList ('1' :: (List.replicate count ['+', '1']).flatten)

/-! ## The tokens -/

/-- The value of the numeral. -/
def one : Literal := .number (Number.ofLiteral ['1'] [])

def oneToken : Token := ⟨.number, "1", one, 1⟩

def plusToken : Token := ⟨.plus, "+", .nil, 1⟩

def sumTokens (count : Nat) : List Token :=
  oneToken :: (List.replicate count [plusToken, oneToken]).flatten

theorem sumTokens_succ (count : Nat) :
    sumTokens (count + 1) = sumTokens count ++ [plusToken, oneToken] := by
  rw [sumTokens, List.replicate_succ', List.flatten_append, List.flatten_singleton]
  rfl

theorem first_numeral {rest : List Char} (hrest : ∀ c ∈ rest.head?, c = '+') :
    Piece.first '1' rest = (⟨.lexeme .number one, ['1']⟩, rest) := by
  rw [Piece.first_of_isDigit (by decide), ← List.nil_append rest]
  refine Piece.number_of_stop (List.forall_mem_nil _) (fun c hc ↦ ?_) ?_
  · rw [hrest c hc]
    decide
  · rintro d tail rfl
    exact absurd (hrest '.' rfl) (by decide)

theorem first_plus (rest : List Char) :
    Piece.first '+' rest = (⟨.lexeme .plus .nil, ['+']⟩, rest) := by
  rw [Piece.first_of_apart (by decide) (by decide) (by decide) (by decide)
    fun h ↦ absurd h.1 (by decide)]
  refine Piece.symbol_of_single rfl fun d _ ↦ ?_
  rw [Kind.ofSymbolPair?] <;> exact fun h ↦ absurd h (by decide)

theorem cut_sum (count : Nat) : Piece.cut ('1' :: (List.replicate count ['+', '1']).flatten)
    = ⟨.lexeme .number one, ['1']⟩ :: (List.replicate count
        [⟨.lexeme .plus .nil, ['+']⟩, ⟨.lexeme .number one, ['1']⟩]).flatten := by
  induction count with
  | zero =>
    rw [List.replicate_zero, List.flatten_nil, Piece.cut_cons,
      first_numeral fun _ h ↦ absurd h (Option.not_mem_none _), Piece.cut_nil]
    rfl
  | succ count ih =>
    rw [List.replicate_succ, List.flatten_cons, Piece.cut_cons,
      first_numeral fun _ h ↦ (Option.mem_some_iff.mp h).symm, List.cons_append, Piece.cut_cons,
      first_plus, List.singleton_append, ih]
    rfl

theorem foldl_sum (count : Nat) (w : Scan.Walk) (hline : w.line = 1) :
    (List.replicate count [(⟨.lexeme .plus .nil, ['+']⟩ : Piece),
      ⟨.lexeme .number one, ['1']⟩]).flatten.foldl Scan.Walk.step w
      = { w with tokens :=
          (List.replicate count [plusToken, oneToken]).flatten.reverse ++ w.tokens } := by
  induction count generalizing w with
  | zero => rfl
  | succ count ih =>
    obtain ⟨line, tokens, errors⟩ := w
    obtain rfl : line = 1 := hline
    rw [List.replicate_succ, List.flatten_cons, List.foldl_append, List.foldl_cons, List.foldl_cons,
      List.foldl_nil, ih _ rfl, List.replicate_succ, List.flatten_cons, List.reverse_append,
      List.append_assoc]
    rfl

theorem scan_sumOfOnes (count : Nat) :
    scan (sumOfOnes count) = ⟨sumTokens count, ⟨.eof, "", .nil, 1⟩, []⟩ := by
  have hwalk : (Piece.cut (sumOfOnes count).toList).foldl Scan.Walk.step ⟨1, [], []⟩
      = ⟨1, (sumTokens count).reverse, []⟩ := by
    rw [sumOfOnes, String.toList_ofList, cut_sum, List.foldl_cons, foldl_sum _ _ rfl, sumTokens,
      List.reverse_cons]
    rfl
  rw [scan, Scan.ofPieces, hwalk, List.reverse_reverse]
  rfl

/-! ## The tree -/

/-- A sum of ones as a tree. It leans to the left. -/
def sumExpr : Nat → Expr
  | 0 => .literal one
  | count + 1 => .binary (sumExpr count) plusToken (.literal one)

theorem height_sumExpr (count : Nat) : (sumExpr count).height = count + 1 := by
  induction count with
  | zero => rfl
  | succ count ih =>
    rw [sumExpr, Expr.height, ih, Expr.height, Nat.max_eq_left (Nat.le_add_left 1 count)]

section

variable {input : Parser.Input} {nesting functions : Nat}

/-- The terms are read in a loop, so they need no nested calls beyond those for one of them. -/
theorem continues_sum (hnesting : 4 ≤ nesting) (hsize : 1 < input.size) (count : Nat) :
    Parser.Continues (Parser.atRank input nesting 6)
      (Parser.chain (Parser.atRank input nesting 6) Level.sum.hasOperator Level.sum.join) functions
      (sumExpr count) (sumTokens count) (stopsAt 6) := by
  have hdenotes : oneToken.Denotes one := rfl
  have hterm : Parser.Parses (Parser.atRank input nesting 6) functions (.literal one) [oneToken]
      (stopsAt 6) :=
    (Parser.Recognized.literal hdenotes hsize).parses (by decide)
    (by rw [List.length_singleton]; omega)
  induction count with
  | zero => exact .of_parses hterm
  | succ count ih =>
    rw [sumTokens_succ]
    refine ih.step (List.cons_ne_nil _ _) (fun rest errors left hrest ↦ ?_) fun rest _ ↦
      stopsAt_cons fun tightness h ↦ ?_
    · rw [Parser.chain, List.cons_append, bind_of_ok (Parser.acceptIf_eq_some rfl)]
      exact bind_of_ok (hterm rest errors hrest)
    · rw [← Option.mem_some_iff.mp h]
      decide

/-- All levels from the sums outwards are passed through. -/
theorem parses_sum (hnesting : 11 ≤ nesting) {count : Nat}
    (hsize : (sumTokens count).length < input.size) :
    Parser.Parses (Parser.expression input nesting) functions (sumExpr count) (sumTokens count)
      (stopsAt 0) := by
  have hone : 1 < input.size := Nat.lt_of_le_of_lt (Nat.le_add_left _ _) hsize
  obtain ⟨nesting, rfl⟩ := Nat.exists_eq_add_of_le' hnesting
  have hsum : Parser.Parses (Parser.atRank input (nesting + 5) 5) functions (sumExpr count)
      (sumTokens count) (stopsAt 5) :=
    (continues_sum (Nat.le_add_left _ _) hone count).finish hsize Parser.parses_chain_end
      fun _ ↦ stopsAt_mono (by decide)
  have hlooser : ∀ {rank nesting : Nat}, rank < 5 →
      Parser.Parses (Parser.atRank input nesting (rank + 1)) functions (sumExpr count)
        (sumTokens count) (stopsAt (rank + 1)) →
      Parser.Parses (Parser.atRank input (nesting + 1) rank) functions (sumExpr count)
        (sumTokens count) (stopsAt rank) := by
    intro rank nesting hrank
    have hprimary : Rank.primary = 9 := rfl
    have hunary : Rank.unary = 7 := rfl
    exact Parser.Parses.looser (by omega) (fun h ↦ by omega) (List.cons_ne_nil _ _) hsize
  rw [Parser.expression]
  exact hlooser (by decide) (hlooser (by decide) (hlooser (by decide) (hlooser (by decide)
    (hlooser (by decide) hsum))))

end

theorem parseExpression_sum {nesting : Nat} (hnesting : 11 ≤ nesting) (count : Nat)
    (finish : Token) :
    parseExpression nesting (sumTokens count) finish = ⟨.ok (sumExpr count), []⟩ := by
  have hparses : Parser.Parses (Parser.expression ⟨finish, (sumTokens count).length + 1⟩ nesting) 0
      (sumExpr count) (sumTokens count) (stopsAt 0) := parses_sum hnesting (Nat.lt_succ_self _)
  have hrun := hparses [] [] fun _ h ↦ absurd h (Option.not_mem_none _)
  rw [List.append_nil] at hrun
  refine Parser.run_eq_ok.mpr ⟨⟨[], 0, []⟩, ?_, rfl⟩
  rw [Parser.wholeExpression, bind_of_ok hrun]
  rfl

theorem parse_sumOfOnes {nesting : Nat} (hnesting : 11 ≤ nesting) (count : Nat) :
    Analysis.parse (parseExpression nesting) (sumOfOnes count)
      = ⟨scan (sumOfOnes count), some (sumExpr count), ⟨.syntactic, #[]⟩, [], false⟩ := by
  refine Analysis.parse_eq_of_clean ?_ ?_
  · rw [scan_sumOfOnes]
  · rw [scan_sumOfOnes]
    exact parseExpression_sum hnesting count _

/-! ## The line -/

/-- A sum begins and ends with a numeral, so there is nothing to trim. -/
theorem trim_sumOfOnes (count : Nat) : Text.trim (sumOfOnes count) = sumOfOnes count := by
  have hreverse : ∃ cs, ('1' :: (List.replicate count ['+', '1']).flatten).reverse = '1' :: cs := by
    cases count with
    | zero => exact ⟨[], rfl⟩
    | succ count =>
      rw [List.replicate_succ', List.flatten_append, ← List.cons_append, List.reverse_append]
      exact ⟨_, rfl⟩
  obtain ⟨cs, hcs⟩ := hreverse
  have hblank : ¬ Text.isBlank '1' = true := by decide
  rw [Text.trim, sumOfOnes, String.toList_ofList, Text.strip, List.dropWhile_cons_of_neg hblank,
    hcs, List.dropWhile_cons_of_neg hblank, ← hcs, List.reverse_reverse]

theorem isSource_sumOfOnes (count : Nat) : IsSource (sumOfOnes count) := by
  have hword : ∀ word : String, word.toList.head? ≠ some '1' →
      Text.trim (sumOfOnes count) ≠ word := by
    rintro word hhead hword
    rw [trim_sumOfOnes] at hword
    rw [← hword, sumOfOnes, String.toList_ofList] at hhead
    exact hhead rfl
  exact ⟨hword _ (by decide), hword _ (by decide), hword _ (by decide)⟩

/-- If it has more terms than the host admits nested calls, a sum is evaluated, and it is neither
answered nor complained about. -/
theorem react_sumOfOnes (s : Session) {count : Nat} (hnesting : 11 ≤ s.host.nesting)
    (hcount : s.host.nesting ≤ count) :
    isExpression s.host.nesting (sumOfOnes count) = true ∧
    (react s (sumOfOnes count)).1.shown = [] ∧ (react s (sumOfOnes count)).1.ends = false ∧
    (react s (sumOfOnes count)).1.escaped = none ∧ (react s (sumOfOnes count)).2 = s := by
  have hparse := parse_sumOfOnes hnesting count
  have hexpression : isExpression s.host.nesting (sumOfOnes count) = true := by
    rw [isExpression, hparse]
    rfl
  have hevaluates := evaluates (isSource_sumOfOnes count) hexpression
  have hdeep := hevaluates.deep.mpr ⟨sumExpr count, by rw [hparse], by rw [height_sumExpr]; omega⟩
  obtain ⟨-, hshown, hescaped, hsession⟩ := hevaluates.silent hdeep
  refine ⟨hexpression, hshown, ?_, hescaped, hsession⟩
  rw [react_of_expression (isSource_sumOfOnes count) hexpression]

/-- On a host with the usual bounds this happens to a line of twenty-eight thousand characters. -/
theorem sum_passed_over :
    IsSource (sumOfOnes 14000) ∧
    isExpression Host.standardNesting (sumOfOnes 14000) = true ∧
    (react (.start (.standard none 0)) (sumOfOnes 14000)).1.shown = [] ∧
    (react (.start (.standard none 0)) (sumOfOnes 14000)).1.ends = false ∧
    (react (.start (.standard none 0)) (sumOfOnes 14000)).1.escaped = none ∧
    (react (.start (.standard none 0)) (sumOfOnes 14000)).2 = .start (.standard none 0) :=
  have hnesting : 11 ≤ (Session.start (.standard none 0)).host.nesting :=
    of_decide_eq_true (p := 11 ≤ 10000) rfl
  have hcount : (Session.start (.standard none 0)).host.nesting ≤ 14000 :=
    of_decide_eq_true (p := 10000 ≤ 14000) rfl
  ⟨isSource_sumOfOnes 14000, react_sumOfOnes (.start (.standard none 0)) hnesting hcount⟩

end Lox.Prompt
