import Lox.Proofs.Syntax.Acceptance.Statement
import Lox.Proofs.Syntax.Progress

/-!
# The parser accepts its grammar

Where there are no complaints there is a tree, the tree is well-formed, and the tokens are its
spelling, all of them and in order. What else could end the parser in silence is the bound on
nested calls, and nothing but that: a declaration or an expression that is given up has been
complained about, and no loop runs out of rounds.
-/

namespace Lox

open Lox.Parser

variable {α : Type} {nesting : Nat} {tokens : List Token} {finish : Token}

/-- A parser that gets on and that stops in silence has run out of nested calls. -/
theorem Parser.tooDeep_of_silent {p : Input → Parse α} {R : α → List Token → Prop} {abort : Abort}
    (hprogress : Progress finish (tokens.length + 1) 0 (p ⟨finish, tokens.length + 1⟩))
    (hconsumes : Consumes (p ⟨finish, tokens.length + 1⟩) ⟨tokens, 0, []⟩ R)
    (herrors : (Parser.run p tokens finish).errors = [])
    (hresult : (Parser.run p tokens finish).result = .error abort) : abort = .tooDeep := by
  rw [Parser.run] at herrors hresult
  cases hp : p ⟨finish, tokens.length + 1⟩ ⟨tokens, 0, []⟩ with
  | ok a s' =>
    rw [hp] at hresult
    cases hresult
  | error abort' s' =>
    rw [hp] at herrors hresult
    cases hresult
    have hexhausted := (Ends.of_error (hprogress ⟨tokens, 0, []⟩ (Nat.lt_succ_self _)) hp).2.1
    have hfault := (Ends.of_error hconsumes hp).2.2
    rw [List.reverse_eq_nil_iff.mp herrors] at hfault
    cases abort with
    | tooDeep => rfl
    | fault => exact absurd (hfault rfl) (Nat.lt_irrefl _)
    | exhausted => exact absurd rfl hexhausted

theorem progress_program (hfinish : finish.kind = .eof) {size : Nat} :
    Progress finish size 0 (Parser.program ⟨finish, size⟩ nesting) := by
  have h : AdvancesStatements ⟨finish, size⟩ nesting := .of_nesting hfinish nesting
  exact .after (.many h.declaration _ (Nat.le_refl _) _) fun _ ↦ .pure _

theorem progress_wholeExpression (hfinish : finish.kind = .eof) {size : Nat} :
    Progress finish size 0 (Parser.wholeExpression ⟨finish, size⟩ nesting) := by
  have h : AdvancesExpressions ⟨finish, size⟩ nesting := advancesExpressions hfinish nesting
  refine .after (h.expression.mono (Nat.zero_le _)) fun e ↦ .after .check fun more ↦ ?_
  cases more with
  | true => exact .after .fail fun _ ↦ .pure _
  | false => exact .after (.pure _) fun _ ↦ .pure _

theorem consumes_program (hfinish : finish.kind = .eof) {size : Nat} (s : State) :
    Consumes (Parser.program ⟨finish, size⟩ nesting) s fun _ _ ↦ True :=
  have h : ReadsStatements ⟨finish, size⟩ nesting := .of_nesting hfinish nesting
  (h.consumes_declarations (fun _ ↦ false) s).andThen fun _ _ _ _ _ ↦ .pure fun _ ↦ trivial

theorem consumes_wholeExpression (hfinish : finish.kind = .eof) {size : Nat} (s : State) :
    Consumes (Parser.wholeExpression ⟨finish, size⟩ nesting) s fun _ _ ↦ True := by
  have h : ReadsExpressions ⟨finish, size⟩ nesting := .of_nesting hfinish nesting
  refine Consumes.andThen (h.expression s) fun e s₁ _ _ ts ↦ Consumes.check.andThen
    fun more s₂ _ _ us ↦ ?_
  cases more with
  | true =>
    exact Consumes.andThen (R := fun _ _ ↦ True) .fail fun _ _ _ _ _ ↦ .pure fun _ _ _ ↦ trivial
  | false => exact .pure fun _ _ ↦ trivial

/-- The parser accepts only its grammar and loses no token. If it does not complain about a program,
it has read well-formed statements that are spelled by exactly the tokens of the program; and if it
does not complain about an expression, it has read a well-formed expression that is spelled by
exactly those tokens. The one other way to end without a complaint is that nested calls run out. -/
theorem parse_accepts (nesting : Nat) (tokens : List Token) {finish : Token}
    (hfinish : finish.kind = .eof) :
    ((parseProgram nesting tokens finish).errors = [] →
      (parseProgram nesting tokens finish).result = .error .tooDeep ∨
      ∃ program, (parseProgram nesting tokens finish).result = .ok program ∧
        (∀ st ∈ program, st.WellFormed false) ∧ Spells (Stmt.spellings program) tokens) ∧
    ((parseExpression nesting tokens finish).errors = [] →
      (parseExpression nesting tokens finish).result = .error .tooDeep ∨
      ∃ e, (parseExpression nesting tokens finish).result = .ok e ∧
        e.WellFormed ∧ Spells e.spelling tokens) := by
  constructor
  · intro herrors
    cases hresult : (parseProgram nesting tokens finish).result with
    | error abort =>
      exact .inl (congrArg Except.error (Parser.tooDeep_of_silent
        (p := fun input ↦ Parser.program input nesting) (progress_program hfinish)
        (consumes_program hfinish _) herrors hresult))
    | ok program =>
      have hparse : parseProgram nesting tokens finish = ⟨.ok program, []⟩ := by
        rw [← hresult, ← herrors]
      exact .inr ⟨program, rfl, wellFormed_of_parseProgram hfinish hparse⟩
  · intro herrors
    cases hresult : (parseExpression nesting tokens finish).result with
    | error abort =>
      exact .inl (congrArg Except.error (Parser.tooDeep_of_silent
        (p := fun input ↦ Parser.wholeExpression input nesting) (progress_wholeExpression hfinish)
        (consumes_wholeExpression hfinish _) herrors hresult))
    | ok e =>
      have hparse : parseExpression nesting tokens finish = ⟨.ok e, []⟩ := by
        rw [← hresult, ← herrors]
      exact .inr ⟨e, rfl, wellFormed_of_parseExpression hfinish hparse⟩

/-- The tokens of `a = -b;` are read as one statement. -/
theorem parse_accepts_assignment :
    Token.kind ⟨.eof, "", .nil, 1⟩ = .eof ∧
    ∃ program, (parseProgram 60 [⟨.identifier, "a", .nil, 1⟩, ⟨.equal, "=", .nil, 1⟩,
        ⟨.minus, "-", .nil, 1⟩, ⟨.identifier, "b", .nil, 1⟩, ⟨.semicolon, ";", .nil, 1⟩]
        ⟨.eof, "", .nil, 1⟩).result = .ok program ∧
      (∀ st ∈ program, st.WellFormed false) ∧
      Spells (Stmt.spellings program) [⟨.identifier, "a", .nil, 1⟩, ⟨.equal, "=", .nil, 1⟩,
        ⟨.minus, "-", .nil, 1⟩, ⟨.identifier, "b", .nil, 1⟩, ⟨.semicolon, ";", .nil, 1⟩] := by
  refine ⟨rfl, ((parse_accepts 60 _ rfl).1 (by decide +kernel)).resolve_left ?_⟩
  intro h
  have hok : (parseProgram 60 [⟨.identifier, "a", .nil, 1⟩, ⟨.equal, "=", .nil, 1⟩,
      ⟨.minus, "-", .nil, 1⟩, ⟨.identifier, "b", .nil, 1⟩, ⟨.semicolon, ";", .nil, 1⟩]
      ⟨.eof, "", .nil, 1⟩).result.isOk = true := by decide +kernel
  rw [h] at hok
  cases hok

end Lox
