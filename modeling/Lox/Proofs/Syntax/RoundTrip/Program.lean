import Lox.Proofs.Syntax.Acceptance.Statement
import Lox.Proofs.Syntax.Nesting
import Lox.Proofs.Syntax.RoundTrip.Statement

/-!
# Parsing undoes spelling

The parser reads every well-formed program back from its tokens, and every well-formed expression.
How many nested calls it may make decides only whether it gets to the end: with fewer than the
tokens ask for it may find the program nested too deeply, but it never finds anything else.

So no two well-formed programs are spelled alike.
-/

namespace Lox

variable {tokens : List Token} {nesting : Nat}

/-- Every tree has a spelling. -/
theorem exists_spells (glyphs : List Glyph) : ∃ tokens, Spells glyphs tokens := by
  have hglyph : ∀ g : Glyph, ∃ t, g.Fits t := by
    intro g
    cases g with
    | token t => exact ⟨t, rfl⟩
    | mark kind => exact ⟨⟨kind, "", .nil, 0⟩, rfl⟩
    | constant value => exact ⟨⟨.number, "", value, 0⟩, rfl⟩
  induction glyphs with
  | nil => exact ⟨[], .nil⟩
  | cons g glyphs ih =>
    obtain ⟨t, ht⟩ := hglyph g
    obtain ⟨ts, hts⟩ := ih
    exact ⟨t :: ts, .cons ht hts⟩

/-- What a well-formed program is spelled as parses to that program, without complaints. -/
theorem parseProgram_spelling {program : List Stmt}
    (finish : Token) (hprogram : ∀ st ∈ program, st.WellFormed false)
    (hspells : Spells (Stmt.spellings program) tokens) (hnesting : 10 * tokens.length ≤ nesting) :
    parseProgram nesting tokens finish = ⟨.ok program, []⟩ := by
  have hparses : Parser.Parses (Parser.many (fun _ ↦ false)
      (Parser.declaration ⟨finish, tokens.length + 1⟩ nesting) (tokens.length + 1) []) 0
      (program.map some) tokens (· = []) := by
    refine Parser.parses_declarations hprogram hspells (fun st hst us hus hle ↦ ?_)
      (fun _ _ ↦ rfl) (fun rest hrest ↦ ?_) (fun rest hrest t ht ↦ ?_) (fun h ↦ by cases h)
      (Nat.lt_succ_self _) hnesting
    · exact Parser.recognizedStatement_of_wellFormed (hprogram st hst) hus (Nat.lt_succ_of_le hle)
    · rw [hrest]
      exact fun _ h ↦ absurd h (Option.not_mem_none _)
    · rw [hrest] at ht
      exact absurd ht (Option.not_mem_none _)
  have hrun := hparses [] [] rfl
  rw [List.append_nil] at hrun
  refine Parser.run_eq_ok.mpr ⟨⟨[], 0, []⟩, ?_, rfl⟩
  rw [Parser.program, bind_of_ok hrun]
  simp [Pure.pure, EStateM.pure]

/-- Nested calls may run out, but nothing else can come of it. -/
theorem parseProgram_tooDeep_or_spelling {program : List Stmt} (finish : Token)
    (hprogram : ∀ st ∈ program, st.WellFormed false)
    (hspells : Spells (Stmt.spellings program) tokens) (nesting : Nat) :
    (parseProgram nesting tokens finish).result = .error .tooDeep ∨
      parseProgram nesting tokens finish = ⟨.ok program, []⟩ := by
  have henough : parseProgram (nesting + 10 * tokens.length) tokens finish = ⟨.ok program, []⟩ :=
    parseProgram_spelling finish hprogram hspells (Nat.le_add_left _ _)
  rw [← henough]
  exact (Parser.run_of_extended (fun _ ↦ Parser.extended_program Parser.Abort.noConfusion
    (.refl _ _) (.of_le (Nat.le_add_right _ _))) tokens finish).imp_left And.left

/-- What a well-formed expression is spelled as parses to that expression, without complaints. -/
theorem parseExpression_spelling {e : Expr}
    (finish : Token) (he : e.WellFormed) (hspells : Spells e.spelling tokens)
    (hnesting : 10 * tokens.length < nesting) :
    parseExpression nesting tokens finish = ⟨.ok e, []⟩ := by
  have hparses : Parser.Parses (Parser.expression ⟨finish, tokens.length + 1⟩ nesting) 0 e tokens
      (· = []) := by
    refine Parser.parses_expression he hspells (Nat.lt_succ_self _) hnesting fun rest hrest ↦ ?_
    rw [hrest]
    exact fun _ h ↦ absurd h (Option.not_mem_none _)
  have hrun := hparses [] [] rfl
  rw [List.append_nil] at hrun
  refine Parser.run_eq_ok.mpr ⟨⟨[], 0, []⟩, ?_, rfl⟩
  rw [Parser.wholeExpression, bind_of_ok hrun]
  rfl

/-- The tokens of an expression, between the two that make a statement of it that prints its
value. -/
theorem parseProgram_print {e : Expr} {finish keyword semicolon : Token}
    (hfinish : finish.kind = .eof)
    (hparse : parseExpression nesting tokens finish = ⟨.ok e, []⟩)
    (hkeyword : keyword.kind = .print) (hsemicolon : semicolon.kind = .semicolon)
    (finish' : Token) :
    (parseProgram nesting (keyword :: tokens ++ [semicolon]) finish').result = .error .tooDeep ∨
      parseProgram nesting (keyword :: tokens ++ [semicolon]) finish' = ⟨.ok [.print e], []⟩ := by
  obtain ⟨hwf, hspells⟩ := wellFormed_of_parseExpression hfinish hparse
  refine parseProgram_tooDeep_or_spelling finish' (List.forall_mem_singleton.mpr (.print hwf)) ?_ _
  rw [Stmt.spellings, Stmt.spellings, Stmt.spelling, List.append_nil]
  have hend : Spells [.mark .semicolon] [semicolon] := .cons hsemicolon .nil
  exact .append (spells_cons.mpr ⟨keyword, tokens, hkeyword, hspells, rfl⟩) hend

/-- A well-formed program can be told from its tokens. -/
theorem eq_of_spells {program program' : List Stmt} (hprogram : ∀ st ∈ program, st.WellFormed false)
    (hprogram' : ∀ st ∈ program', st.WellFormed false)
    (hspells : Spells (Stmt.spellings program) tokens)
    (hspells' : Spells (Stmt.spellings program') tokens) : program = program' := by
  have finish : Token := ⟨.eof, "", .nil, 0⟩
  have hparse := parseProgram_spelling finish hprogram hspells (Nat.le_refl _)
  rw [parseProgram_spelling finish hprogram' hspells' (Nat.le_refl _)] at hparse
  cases hparse
  rfl

/-- Parsing undoes spelling: what a well-formed program or expression is spelled as parses to it
again, without complaints, unless the parser runs out of nested calls. Ten for each token, and one
more for a single expression, are enough. -/
theorem parse_spelling (nesting : Nat) (tokens : List Token) (finish : Token) :
    (∀ program : List Stmt, (∀ st ∈ program, st.WellFormed false) →
      Spells (Stmt.spellings program) tokens →
      ((parseProgram nesting tokens finish).result = .error .tooDeep ∨
        parseProgram nesting tokens finish = ⟨.ok program, []⟩) ∧
      (10 * tokens.length ≤ nesting → parseProgram nesting tokens finish = ⟨.ok program, []⟩)) ∧
    (∀ e : Expr, e.WellFormed → Spells e.spelling tokens →
      ((parseExpression nesting tokens finish).result = .error .tooDeep ∨
        parseExpression nesting tokens finish = ⟨.ok e, []⟩) ∧
      (10 * tokens.length < nesting → parseExpression nesting tokens finish = ⟨.ok e, []⟩)) := by
  constructor
  · intro program hprogram hspells
    exact ⟨parseProgram_tooDeep_or_spelling finish hprogram hspells nesting,
      parseProgram_spelling finish hprogram hspells⟩
  · intro e he hspells
    refine ⟨?_, parseExpression_spelling finish he hspells⟩
    have henough : parseExpression (nesting + 10 * tokens.length + 1) tokens finish = ⟨.ok e, []⟩ :=
      parseExpression_spelling finish he hspells (Nat.lt_succ_of_le (Nat.le_add_left _ _))
    rw [← henough]
    exact (Parser.run_of_extended (fun _ ↦ Parser.extended_wholeExpression (.refl _ _)
      (.of_le (by omega))) tokens finish).imp_left And.left

/-- The statement `if (a) b = a; else a.b;` is read back. -/
theorem parse_spelling_branch :
    parseProgram 140
        [⟨.if, "if", .nil, 1⟩, ⟨.leftParen, "(", .nil, 1⟩, ⟨.identifier, "a", .nil, 1⟩,
          ⟨.rightParen, ")", .nil, 1⟩, ⟨.identifier, "b", .nil, 1⟩, ⟨.equal, "=", .nil, 1⟩,
          ⟨.identifier, "a", .nil, 1⟩, ⟨.semicolon, ";", .nil, 1⟩, ⟨.else, "else", .nil, 1⟩,
          ⟨.identifier, "a", .nil, 1⟩, ⟨.dot, ".", .nil, 1⟩, ⟨.identifier, "b", .nil, 1⟩,
          ⟨.semicolon, ";", .nil, 1⟩] ⟨.eof, "", .nil, 1⟩
      = ⟨.ok [.branch (.var ⟨⟨.identifier, "a", .nil, 1⟩, none⟩)
          (.expression (.assign ⟨⟨.identifier, "b", .nil, 1⟩, none⟩
            (.var ⟨⟨.identifier, "a", .nil, 1⟩, none⟩)))
          (some (.expression (.property (.var ⟨⟨.identifier, "a", .nil, 1⟩, none⟩)
            ⟨.identifier, "b", .nil, 1⟩)))], []⟩ := by
  refine ((parse_spelling _ _ _).1 _ ?_ ?_).2 (by decide)
  · refine List.forall_mem_singleton.mpr (.branch (.var rfl) (.expression (.assign rfl (.var rfl)))
      rfl ?_ ?_ fun _ ↦ rfl)
    · rintro st ⟨⟩
      exact .expression (.property (.var rfl) (by decide) rfl)
    · rintro st ⟨⟩
      rfl
  · repeat' constructor

end Lox
