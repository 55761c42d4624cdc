import Lox.Proofs.Lines.Grip
import Lox.Proofs.Syntax.Acceptance.Statement
import Lox.Proofs.Syntax.RoundTrip.Statement

/-!
# Parsing two programs as one

Each parser has a grip: an expression may go on with what follows, and a statement does not. So if
two programs are each parsed without complaints, then the tokens of the one and those of the other
are parsed as the statements of the one and those of the other. The second program may be on other
lines than before.
-/

namespace Lox.Parser

variable {sequel : Sequel} {input wider : Input} {nesting : Nat}

/-! ## Expressions -/

theorem moved_join (level : Level) (f : Int → Int) (left : Expr) (operator : Token) (right : Expr) :
    (level.join left operator right).moved f
      = level.join (left.moved f) (operator.moved f) (right.moved f) := by
  cases level <;> rfl

structure CarriesExpressions (sequel : Sequel) (input wider : Input) (nesting : Nat) : Prop where
  expression : Carries sequel .loose (Expr.moved sequel.move) (Parser.expression input nesting)
    (Parser.expression wider nesting)
  assignment : Carries sequel .loose (Expr.moved sequel.move) (Parser.assignment input nesting)
    (Parser.assignment wider nesting)
  binary : ∀ level, Carries sequel .loose (Expr.moved sequel.move)
    (Parser.binary input nesting level) (Parser.binary wider nesting level)
  unary : Carries sequel .loose (Expr.moved sequel.move) (Parser.unary input nesting)
    (Parser.unary wider nesting)
  call : Carries sequel .loose (Expr.moved sequel.move) (Parser.call input nesting)
    (Parser.call wider nesting)
  callArguments : ∀ callee, Carries sequel .loose (Expr.moved sequel.move)
    (Parser.callArguments input nesting callee)
    (Parser.callArguments wider nesting (callee.moved sequel.move))
  primary : Carries sequel .loose (Expr.moved sequel.move) (Parser.primary input nesting)
    (Parser.primary wider nesting)

namespace CarriesExpressions

theorem primary_succ (ih : CarriesExpressions sequel input wider nesting) :
    Carries sequel .loose (Expr.moved sequel.move) (Parser.primary input (nesting + 1))
      (Parser.primary wider (nesting + 1)) := by
  rw [Parser.primary, Parser.primary]
  refine .bind_loose .peek fun t ↦ ?_
  rw [Token.kind_moved]
  cases t.kind
  case «false» | «true» | nil | number | string | this | identifier =>
    exact .bind_loose .advance fun _ ↦ (Carries.pure rfl).loose
  case super =>
    exact .bind_loose .advance fun _ ↦ .bind_loose .expect fun _ ↦ .bind_loose .expect fun _ ↦
      (Carries.pure rfl).loose
  case leftParen =>
    exact .bind_loose .advance fun _ ↦ .bind_loose ih.expression fun _ ↦
      .bind_loose .expect fun _ ↦ (Carries.pure rfl).loose
  all_goals exact .fail

theorem assignment_succ (ih : CarriesExpressions sequel input wider nesting) :
    Carries sequel .loose (Expr.moved sequel.move) (Parser.assignment input (nesting + 1))
      (Parser.assignment wider (nesting + 1)) := by
  rw [Parser.assignment, Parser.assignment]
  refine .bind_loose (ih.binary .or) fun target ↦ .bind_loose .accept fun equals? ↦ ?_
  cases equals? with
  | none => exact (Carries.pure rfl).loose
  | some equals =>
    refine .bind_loose ih.assignment fun value ↦ ?_
    cases target
    case var | property => exact (Carries.pure rfl).loose
    all_goals exact .bind_loose .report fun _ ↦ (Carries.pure rfl).loose

theorem of_nesting (hsize : input.size ≤ wider.size) :
    ∀ nesting, CarriesExpressions sequel input wider nesting
  | 0 => ⟨.tooDeep, .tooDeep, fun _ ↦ .tooDeep, .tooDeep, .tooDeep, fun _ ↦ .tooDeep, .tooDeep⟩
  | nesting + 1 =>
    have ih := of_nesting hsize nesting
    { expression := by
        rw [Parser.expression, Parser.expression]
        exact ih.assignment
      assignment := ih.assignment_succ
      binary := fun level ↦ by
        rw [Parser.binary, Parser.binary]
        have hchain : ∀ operand operand',
            Carries sequel .loose (Expr.moved sequel.move) operand operand' → ∀ left,
              Carries sequel .loose (Expr.moved sequel.move)
                (chain operand level.hasOperator level.join input.size left)
                (chain operand' level.hasOperator level.join wider.size (left.moved sequel.move)) :=
          fun _ _ hoperand left ↦ .chain hoperand (moved_join level sequel.move) _ _ left hsize
        cases level.tighter? with
        | none => exact .bind_loose ih.unary (hchain _ _ ih.unary)
        | some tighter => exact .bind_loose (ih.binary tighter) (hchain _ _ (ih.binary tighter))
      unary := by
        rw [Parser.unary, Parser.unary]
        refine .bind_loose .acceptIf fun operator? ↦ ?_
        cases operator? with
        | none => exact ih.call
        | some operator => exact .map ih.unary fun _ ↦ rfl
      call := by
        rw [Parser.call, Parser.call]
        exact .bind_loose ih.primary fun operand ↦ .suffixes ih.callArguments _ _ operand hsize
      callArguments := fun callee ↦ by
        rw [Parser.callArguments, Parser.callArguments]
        refine .bind_loose (.listed hsize ih.expression) fun arguments ↦
          .bind_loose .expect fun paren ↦ (Carries.pure ?_).loose
        rw [Expr.moved, Expr.recast, Expr.recastRow_eq_map]
      primary := ih.primary_succ }

end CarriesExpressions

theorem carries_expressionUnless (hsize : input.size ≤ wider.size) {stop : Kind} :
    Carries sequel .loose (Option.map (Expr.moved sequel.move))
      (expressionUnless input stop nesting) (expressionUnless wider stop nesting) := by
  rw [expressionUnless, expressionUnless]
  refine .bind_loose .check fun stops ↦ ?_
  cases stops with
  | true => exact (Carries.pure rfl).loose
  | false => exact .map (CarriesExpressions.of_nesting hsize nesting).expression fun _ ↦ rfl

/-! ## Statements -/

theorem carries_expressionStatement (hsize : input.size ≤ wider.size) : ∀ nesting,
    Carries sequel .closed (Stmt.moved sequel.move) (expressionStatement input nesting)
      (expressionStatement wider nesting)
  | 0 => .tooDeep
  | nesting + 1 => by
    rw [expressionStatement, expressionStatement]
    exact .bind_closed (CarriesExpressions.of_nesting hsize nesting).expression fun _ ↦
      .closed_bind .expect fun _ ↦ .pure rfl

theorem carries_varDeclaration (hsize : input.size ≤ wider.size) : ∀ nesting,
    Carries sequel .closed (Stmt.moved sequel.move) (varDeclaration input nesting)
      (varDeclaration wider nesting)
  | 0 => .tooDeep
  | nesting + 1 => by
    rw [varDeclaration, varDeclaration]
    have hrest : ∀ (name : Token) (initializer : Option Expr),
        Carries sequel .closed (Stmt.moved sequel.move) (do
          let _ ← expect input .semicolon "';' after variable declaration"
          return Stmt.var name initializer) (do
          let _ ← expect wider .semicolon "';' after variable declaration"
          return Stmt.var (name.moved sequel.move) (initializer.map (Expr.moved sequel.move))) :=
      fun _ _ ↦ .closed_bind .expect fun _ ↦ .pure rfl
    refine .bind_closed .expect fun name ↦ .bind_closed .accept fun equals? ↦ ?_
    cases equals? with
    | none => exact hrest name none
    | some _ =>
      exact .bind_closed (g := Option.map (Expr.moved sequel.move))
        (.map (CarriesExpressions.of_nesting hsize nesting).expression fun _ ↦ rfl) (hrest name)

theorem carries_returnStatement (hsize : input.size ≤ wider.size) (keyword : Token) : ∀ nesting,
    Carries sequel .closed (Stmt.moved sequel.move) (returnStatement input keyword nesting)
      (returnStatement wider (keyword.moved sequel.move) nesting)
  | 0 => .tooDeep
  | nesting + 1 => by
    rw [returnStatement, returnStatement]
    have hrest : Carries sequel .closed (Stmt.moved sequel.move) (do
          let value ← expressionUnless input .semicolon nesting
          let _ ← expect input .semicolon "';' after return value"
          return Stmt.return keyword value) (do
          let value ← expressionUnless wider .semicolon nesting
          let _ ← expect wider .semicolon "';' after return value"
          return Stmt.return (keyword.moved sequel.move) value) :=
      .bind_closed (carries_expressionUnless hsize) fun _ ↦ .closed_bind .expect fun _ ↦ .pure rfl
    refine .get fun s ↦ ?_
    have hfunctions : (sequel.behind s).functions = s.functions := rfl
    rw [hfunctions]
    split
    · exact .bind_closed .report fun _ ↦ hrest
    · exact hrest

theorem carries_functionHead (hsize : input.size ≤ wider.size) (what : String) :
    Carries sequel .closed
      (fun head ↦ (head.1.moved sequel.move, head.2.map (Token.moved sequel.move)))
      (functionHead input what) (functionHead wider what) := by
  rw [functionHead, functionHead]
  exact .bind_closed .expect fun _ ↦ .bind_closed .expect fun _ ↦
    .bind_closed (.listed hsize Carries.expect.loose) fun _ ↦ .closed_bind .expect fun _ ↦ .pure rfl

/-- The parsers of statements, declarations apart, end with a token that says so, unless an `else`
follows. -/
structure CarriesStatements (sequel : Sequel) (input wider : Input) (nesting : Nat) : Prop where
  declaration : Carries sequel .loose (Option.map (Stmt.moved sequel.move))
    (Parser.declaration input nesting) (Parser.declaration wider nesting)
  /-- A declaration that is not given up ends with a token that says so, too. -/
  declaration_some : sequel.grip = .closed →
    ∀ s st s', Parser.declaration input nesting s = .ok (some st) s' →
    Parser.declaration wider nesting (sequel.behind s)
      = .ok (some (st.moved sequel.move)) (sequel.behind s')
  classDeclaration : Carries sequel .closed (Stmt.moved sequel.move)
    (Parser.classDeclaration input nesting) (Parser.classDeclaration wider nesting)
  function : ∀ what, Carries sequel sequel.grip (FunDecl.moved sequel.move)
    (Parser.function input what nesting) (Parser.function wider what nesting)
  statement : Carries sequel sequel.grip (Stmt.moved sequel.move) (Parser.statement input nesting)
    (Parser.statement wider nesting)
  forStatement : Carries sequel sequel.grip (Stmt.moved sequel.move)
    (Parser.forStatement input nesting)
    (Parser.forStatement wider nesting)
  block : Carries sequel .closed (List.map (Stmt.moved sequel.move)) (Parser.block input nesting)
    (Parser.block wider nesting)

theorem filterMap_moved (f : Int → Int) (body : List (Option Stmt)) :
    (body.filterMap id).map (Stmt.moved f)
      = (body.map (Option.map (Stmt.moved f))).filterMap id := by
  rw [List.map_filterMap, List.filterMap_map]
  rfl

namespace CarriesStatements

theorem attempt (hsize : input.size ≤ wider.size)
    (ih : CarriesStatements sequel input wider nesting) :
    Carries sequel sequel.grip (Stmt.moved sequel.move) (Parser.attempt input nesting)
      (Parser.attempt wider nesting) := by
  rw [Parser.attempt, Parser.attempt]
  refine .bind_last .peek fun t ↦ ?_
  rw [Token.kind_moved]
  split
  · exact .bind_last .advance fun _ ↦ .of_closed (carries_varDeclaration hsize nesting)
  · exact .bind_last .advance fun _ ↦ .of_closed ih.classDeclaration
  · exact .bind_last .advance fun _ ↦ .map (ih.function _) fun _ ↦ rfl
  · exact ih.statement

theorem classDeclaration_succ (hsize : input.size ≤ wider.size)
    (ih : CarriesStatements sequel input wider nesting) :
    Carries sequel .closed (Stmt.moved sequel.move) (Parser.classDeclaration input (nesting + 1))
      (Parser.classDeclaration wider (nesting + 1)) := by
  rw [Parser.classDeclaration, Parser.classDeclaration]
  have hrest : ∀ (name : Token) (superclass : Option Reference),
      Carries sequel .closed (Stmt.moved sequel.move) (do
        let _ ← expect input .leftBrace "'\x7b' before class body"
        let methods ← many (fun k ↦ decide (k = .rightBrace))
          (Parser.function input "method" nesting) input.size []
        let _ ← expect input .rightBrace "'\x7d' after class body"
        return Stmt.class name superclass methods) (do
        let _ ← expect wider .leftBrace "'\x7b' before class body"
        let methods ← many (fun k ↦ decide (k = .rightBrace))
          (Parser.function wider "method" nesting) wider.size []
        let _ ← expect wider .rightBrace "'\x7d' after class body"
        return Stmt.class (name.moved sequel.move) (superclass.map (Reference.moved sequel.move))
          methods) := by
    refine fun name superclass ↦ .bind_closed .expect fun _ ↦
      .bind_closed (.many (ih.function _).loose _ _ [] hsize) fun methods ↦
        .closed_bind .expect fun _ ↦ .pure ?_
    rw [Stmt.moved, Stmt.recast, FunDecl.recastRow_eq_map]
  refine .bind_closed .expect fun name ↦ .bind_closed .accept fun less? ↦ ?_
  cases less? with
  | none => exact hrest name none
  | some _ =>
    exact .bind_closed (g := Option.map (Reference.moved sequel.move))
      (.map Carries.expect fun _ ↦ rfl) (hrest name)

theorem forStatement_succ (hsize : input.size ≤ wider.size)
    (ih : CarriesStatements sequel input wider nesting) :
    Carries sequel sequel.grip (Stmt.moved sequel.move) (Parser.forStatement input (nesting + 1))
      (Parser.forStatement wider (nesting + 1)) := by
  rw [Parser.forStatement, Parser.forStatement]
  have hrest : ∀ initializer : Option Stmt, Carries sequel sequel.grip (Stmt.moved sequel.move) (do
        let condition ← expressionUnless input .semicolon nesting
        let _ ← expect input .semicolon "';' after loop condition"
        let increment ← expressionUnless input .rightParen nesting
        let _ ← expect input .rightParen "')' after for clauses"
        return Stmt.forLoop initializer condition increment (← Parser.statement input nesting)) (do
        let condition ← expressionUnless wider .semicolon nesting
        let _ ← expect wider .semicolon "';' after loop condition"
        let increment ← expressionUnless wider .rightParen nesting
        let _ ← expect wider .rightParen "')' after for clauses"
        return Stmt.forLoop (initializer.map (Stmt.moved sequel.move)) condition increment
          (← Parser.statement wider nesting)) := by
    refine fun initializer ↦ .bind_last (carries_expressionUnless hsize) fun condition ↦
      .bind_last .expect fun _ ↦ .bind_last (carries_expressionUnless hsize) fun increment ↦
        .bind_last .expect fun _ ↦ .last_bind ih.statement fun body ↦ .pure ?_
    rw [Stmt.moved, Stmt.recast, Stmt.recastOption_eq_map]
  refine .bind_last .expect fun _ ↦ .bind_last .peek fun t ↦ ?_
  rw [Token.kind_moved]
  split
  · exact .bind_last .advance fun _ ↦ hrest none
  · exact .bind_last .advance fun _ ↦ .bind_last (g := Option.map (Stmt.moved sequel.move))
      (.map (carries_varDeclaration hsize nesting) fun _ ↦ rfl) hrest
  · exact .bind_last (g := Option.map (Stmt.moved sequel.move))
      (.map (carries_expressionStatement hsize nesting) fun _ ↦ rfl) hrest

/-- The branches of a conditional, of which the second one may be missing. -/
theorem branch (ih : CarriesStatements sequel input wider nesting) {condition condition' : Expr}
    (hcondition : condition.moved sequel.move = condition') :
    Carries sequel sequel.grip (Stmt.moved sequel.move) (do
      let yes ← Parser.statement input nesting
      match ← accept .else with
      | some _ => return Stmt.branch condition yes (some (← Parser.statement input nesting))
      | none => return Stmt.branch condition yes none) (do
      let yes ← Parser.statement wider nesting
      match ← accept .else with
      | some _ => return Stmt.branch condition' yes (some (← Parser.statement wider nesting))
      | none => return Stmt.branch condition' yes none) := by
  subst hcondition
  by_cases hgrip : sequel.grip = .closed
  · have hstatement := ih.statement
    rw [hgrip] at hstatement ⊢
    refine .closed_bind hstatement fun yes ↦ .bind_steady (.acceptElse hgrip) fun else? ↦ ?_
    cases else? with
    | none => exact .pure rfl
    | some _ => exact .steady (.closed_bind hstatement fun _ ↦ .pure rfl)
  · -- A conditional that an `else` follows may go on with it.
    rw [Sequel.grip_eq_loose hgrip]
    refine .bind_loose ih.statement fun yes ↦ .bind_loose .accept fun else? ↦ ?_
    cases else? with
    | none => exact (Carries.pure rfl).loose
    | some _ => exact .bind_loose ih.statement fun _ ↦ (Carries.pure rfl).loose

theorem statement_succ (hsize : input.size ≤ wider.size)
    (ih : CarriesStatements sequel input wider nesting) :
    Carries sequel sequel.grip (Stmt.moved sequel.move) (Parser.statement input (nesting + 1))
      (Parser.statement wider (nesting + 1)) := by
  have hexpression : Carries sequel .loose (Expr.moved sequel.move)
      (Parser.expression input nesting) (Parser.expression wider nesting) :=
    (CarriesExpressions.of_nesting hsize nesting).expression
  rw [Parser.statement, Parser.statement]
  refine .bind_last .peek fun t ↦ ?_
  rw [Token.kind_moved]
  split
  · exact .bind_last .advance fun _ ↦ ih.forStatement
  · exact .bind_last .advance fun _ ↦ .bind_last .expect fun _ ↦
      .bind_last hexpression fun _ ↦ .bind_last .expect fun _ ↦
        .last_bind ih.statement fun _ ↦ .pure rfl
  · exact .bind_last .advance fun _ ↦ .bind_last .expect fun _ ↦
      .bind_last hexpression fun _ ↦ .bind_last .expect fun _ ↦ ih.branch rfl
  · exact .of_closed (.bind_closed .advance fun _ ↦ .bind_closed hexpression fun _ ↦
      .closed_bind .expect fun _ ↦ .pure rfl)
  · exact .bind_last .advance fun _ ↦ .of_closed (carries_returnStatement hsize t nesting)
  · refine .bind_last .advance fun _ ↦ .of_closed (.map ih.block fun body ↦ ?_)
    rw [Stmt.moved, Stmt.recast, Stmt.recastRow_eq_map]
  · exact .of_closed (carries_expressionStatement hsize nesting)

theorem of_nesting (hsize : input.size ≤ wider.size) :
    ∀ nesting, CarriesStatements sequel input wider nesting
  | 0 => ⟨.tooDeep, fun _ _ _ _ h ↦ (by cases h), .tooDeep, fun _ ↦ .tooDeep, .tooDeep, .tooDeep,
      .tooDeep⟩
  | nesting + 1 =>
    have ih := of_nesting hsize nesting
    { declaration := by
        rw [declaration_eq_recovering, declaration_eq_recovering]
        exact (ih.attempt hsize).recovering
      declaration_some := by
        intro hgrip _ _ _
        have hattempt := ih.attempt hsize
        rw [hgrip] at hattempt
        rw [declaration_eq_recovering, declaration_eq_recovering]
        exact hattempt.recovering_some
      classDeclaration := ih.classDeclaration_succ hsize
      function := fun what ↦ by
        rw [Parser.function, Parser.function]
        exact .bind_last (carries_functionHead hsize what) fun head ↦
          .last_bind (.insideFunction ih.statement) fun _ ↦ .pure rfl
      statement := ih.statement_succ hsize
      forStatement := ih.forStatement_succ hsize
      block := by
        rw [Parser.block, Parser.block]
        exact .bind_closed (.many ih.declaration _ _ [] hsize) fun body ↦
          .closed_bind .expect fun _ ↦ .pure (filterMap_moved sequel.move body) }

end CarriesStatements

/-! ## Whole programs -/

/-- Declarations up to the end of the tokens, none of which is given up: where others follow, the
loop goes on with these, and what it has read so far is the same. -/
theorem many_behind (hsize : input.size ≤ wider.size) (hgrip : sequel.grip = .closed) :
    ∀ bound (read : List (Option Stmt)) s declarations s',
    many (fun _ ↦ false) (declaration input nesting) bound read s = .ok declarations s' →
    (∀ st? ∈ declarations, st?.isSome = true) →
    ∃ new, declarations = read.reverse ++ new ∧ new.length < bound ∧ ∀ left before,
      many (fun _ ↦ false) (declaration wider nesting) (left + new.length) before (sequel.behind s)
        = many (fun _ ↦ false) (declaration wider nesting) left
          ((new.map (Option.map (Stmt.moved sequel.move))).reverse ++ before) (sequel.behind s')
  | 0, _, _, _, _, h, _ => by cases h
  | bound + 1, read, s, declarations, s', h, hsome => by
    obtain ⟨more, s₁, hcheck, h⟩ := bind_eq_ok h
    cases hcheck
    obtain ⟨rest, functions, errors⟩ := s
    -- Only at the end of the tokens does the loop with the sequel go on.
    cases rest with
    | nil =>
      cases h
      exact ⟨[], (List.append_nil _).symm, Nat.succ_pos _, fun _ _ ↦ rfl⟩
    | cons t rest =>
      obtain ⟨st?, s₂, hdeclaration, hmany⟩ := bind_eq_ok h
      obtain ⟨new, rfl, hlength, hcarry⟩ := many_behind hsize hgrip bound _ s₂ _ s' hmany hsome
      refine ⟨st? :: new, by simp, Nat.succ_lt_succ hlength, fun left before ↦ ?_⟩
      obtain ⟨st, rfl⟩ := Option.isSome_iff_exists.mp (hsome st? (by simp))
      have hstatements : CarriesStatements sequel input wider nesting := .of_nesting hsize nesting
      -- A declaration that is not given up leaves nothing open that the sequel could change.
      have hcarried := hstatements.declaration_some hgrip _ _ _ hdeclaration
      have hcheck : check (fun _ ↦ true) (sequel.behind ⟨t :: rest, functions, errors⟩)
          = .ok true (sequel.behind ⟨t :: rest, functions, errors⟩) := rfl
      calc many (fun _ ↦ false) (declaration wider nesting) (left + new.length + 1) before
            (sequel.behind ⟨t :: rest, functions, errors⟩)
          = many (fun _ ↦ false) (declaration wider nesting) (left + new.length)
              (some (st.moved sequel.move) :: before) (sequel.behind s₂) :=
            (bind_of_ok hcheck).trans (bind_of_ok hcarried)
        _ = _ := by
          rw [hcarry]
          simp

/-- The declarations of a program that is parsed without complaints. None has been given up. -/
theorem declarations_of_parseProgram {finish : Token} (hfinish : finish.kind = .eof)
    {tokens : List Token} {program : List Stmt}
    (h : parseProgram nesting tokens finish = ⟨.ok program, []⟩) :
    ∃ declarations, many (fun _ ↦ false) (declaration ⟨finish, tokens.length + 1⟩ nesting)
        (tokens.length + 1) [] ⟨tokens, 0, []⟩ = .ok declarations ⟨[], 0, []⟩ ∧
      (∀ st? ∈ declarations, st?.isSome = true) ∧ program = declarations.filterMap id := by
  obtain ⟨s', hprogram, herrors⟩ := run_eq_ok.mp h
  obtain ⟨declarations, ⟨rest, functions, errors⟩, hmany, hpure⟩ := bind_eq_ok hprogram
  cases hpure
  obtain rfl : errors = [] := herrors
  have hreads : ReadsStatements ⟨finish, tokens.length + 1⟩ nesting := .of_nesting hfinish nesting
  have hdeclaration : ∀ s : State, s.functions = 0 →
      Reads (declaration ⟨finish, tokens.length + 1⟩ nesting) s (fun st? ↦ st?.isSome = true)
        (fun st? ↦ st?.elim [] Stmt.spelling) := fun s _ ↦
    (hreads.declaration s).mono fun st? _ ⟨⟨st, hst, _⟩, hspells⟩ ↦ ⟨by rw [hst]; rfl, hspells⟩
  obtain ⟨hfunctions, -, hsilent⟩ :=
    Ends.of_ok (reads_many _ hdeclaration (tokens.length + 1) [] ⟨tokens, 0, []⟩ rfl) hmany
  obtain rfl : functions = 0 := hfunctions
  obtain rfl : rest = [] := rest_eq_nil_of_many hmany
  obtain ⟨-, -, new, rfl, hnew, -⟩ := hsilent rfl
  exact ⟨_, hmany, hnew, rfl⟩

/-- A program of which no declaration is given up, with other tokens behind it. -/
theorem declarations_behind {sequel : Sequel} (hgrip : sequel.grip = .closed) {input : Input}
    (wider : Input) (hsize : input.size ≤ wider.size) {tokens : List Token}
    {declarations : List (Option Stmt)}
    (h : many (fun _ ↦ false) (declaration input nesting) (tokens.length + 1) [] ⟨tokens, 0, []⟩
      = .ok declarations ⟨[], 0, []⟩) (hsome : ∀ st? ∈ declarations, st?.isSome = true) :
    declarations.length ≤ tokens.length ∧ ∀ left before,
      many (fun _ ↦ false) (declaration wider nesting) (left + declarations.length) before
          ⟨tokens.map (Token.moved sequel.move) ++ sequel.tokens, 0, []⟩
        = many (fun _ ↦ false) (declaration wider nesting) left
          ((declarations.map (Option.map (Stmt.moved sequel.move))).reverse ++ before)
          ⟨sequel.tokens, 0, []⟩ := by
  obtain ⟨new, rfl, hlength, hcarry⟩ := many_behind hsize hgrip _ _ _ _ _ h hsome
  exact ⟨Nat.le_of_lt_succ hlength, hcarry⟩

/-- No program begins with an `else`. -/
theorem notElse_of_parseProgram {finish : Token} (hfinish : finish.kind = .eof)
    {tokens : List Token} {program : List Stmt}
    (h : parseProgram nesting tokens finish = ⟨.ok program, []⟩) : avoids .else tokens := by
  obtain ⟨hprogram, hspells⟩ := wellFormed_of_parseProgram hfinish h
  cases program with
  | nil =>
    rw [spells_nil.mp hspells]
    exact fun _ ht ↦ absurd ht (Option.not_mem_none _)
  | cons st rest =>
    obtain ⟨ts, us, hst, -, rfl⟩ := spells_append.mp hspells
    obtain ⟨t, ts, rfl, ht, -⟩ := (hprogram st List.mem_cons_self).begins hst
    exact avoids_cons (ne_of_startsDeclaration ht rfl)

end Parser

/-- Two programs that are parsed without complaints are parsed as one, the second of them on other
lines. -/
theorem parseProgram_joined {nesting : Nat} {first second : List Token} {finish finish' : Token}
    {program program' : List Stmt} (hfinish : finish.kind = .eof) (hfinish' : finish'.kind = .eof)
    (hfirst : parseProgram nesting first finish = ⟨.ok program, []⟩)
    (hsecond : parseProgram nesting second finish' = ⟨.ok program', []⟩) (f : Int → Int)
    (last : Token) :
    parseProgram nesting (first ++ second.map (Token.moved f)) last
      = ⟨.ok (program ++ program'.map (Stmt.moved f)), []⟩ := by
  obtain ⟨declarations, hmany, hsome, rfl⟩ := Parser.declarations_of_parseProgram hfinish hfirst
  obtain ⟨declarations', hmany', hsome', rfl⟩ :=
    Parser.declarations_of_parseProgram hfinish' hsecond
  -- Behind the first program come the tokens of the second one, and behind these come none.
  let between : Parser.Sequel := ⟨id, second.map (Token.moved f)⟩
  have hbetween : between.grip = .closed := Parser.Sequel.grip_eq_closed.mpr fun t ht ↦ by
    rw [List.head?_map] at ht
    obtain ⟨u, hu, rfl⟩ := Option.map_eq_some_iff.mp ht
    exact Parser.notElse_of_parseProgram hfinish' hsecond u hu
  let atEnd : Parser.Sequel := ⟨f, []⟩
  have hatEnd : atEnd.grip = .closed := rfl
  obtain ⟨wider, hwider⟩ : ∃ wider : Parser.Input,
      wider = ⟨last, (first ++ second.map (Token.moved f)).length + 1⟩ := ⟨_, rfl⟩
  have hsize : wider.size = first.length + second.length + 1 := by
    rw [hwider, List.length_append, List.length_map]
  obtain ⟨hle, hrun⟩ := Parser.declarations_behind hbetween wider
    (by rw [hsize]; exact Nat.succ_le_succ (Nat.le_add_right _ _)) hmany hsome
  obtain ⟨hle', hrun'⟩ := Parser.declarations_behind hatEnd wider
    (by rw [hsize]; exact Nat.succ_le_succ (Nat.le_add_left _ _)) hmany' hsome'
  -- Each declaration takes a token, so the bound of the longer loop is large enough for both.
  obtain ⟨left, hleft⟩ : ∃ left, wider.size
      = left + 1 + declarations'.length + declarations.length :=
    ⟨first.length + second.length - declarations.length - declarations'.length, by omega⟩
  have hmap : first.map (Token.moved id) = first := List.map_id _
  have hwhole : Parser.many (fun _ ↦ false) (Parser.declaration wider nesting) wider.size []
      ⟨first ++ second.map (Token.moved f), 0, []⟩
        = .ok (declarations.map (Option.map (Stmt.moved id))
          ++ declarations'.map (Option.map (Stmt.moved f))) ⟨[], 0, []⟩ := by
    calc Parser.many (fun _ ↦ false) (Parser.declaration wider nesting) wider.size []
          ⟨first ++ second.map (Token.moved f), 0, []⟩
        = Parser.many (fun _ ↦ false) (Parser.declaration wider nesting)
            (left + 1 + declarations'.length + declarations.length) []
            ⟨first.map (Token.moved id) ++ second.map (Token.moved f), 0, []⟩ := by
          rw [hleft, hmap]
      _ = Parser.many (fun _ ↦ false) (Parser.declaration wider nesting)
            (left + 1 + declarations'.length)
            ((declarations.map (Option.map (Stmt.moved id))).reverse ++ [])
            ⟨second.map (Token.moved f) ++ [], 0, []⟩ := by
          rw [hrun, List.append_nil (second.map _)]
      _ = Parser.many (fun _ ↦ false) (Parser.declaration wider nesting) (left + 1)
            ((declarations'.map (Option.map (Stmt.moved f))).reverse
              ++ ((declarations.map (Option.map (Stmt.moved id))).reverse ++ []))
            ⟨[], 0, []⟩ := hrun' _ _
      _ = .ok ((declarations'.map (Option.map (Stmt.moved f))).reverse
            ++ ((declarations.map (Option.map (Stmt.moved id))).reverse ++ [])).reverse
            ⟨[], 0, []⟩ := rfl
      _ = _ := by
          rw [List.append_nil, List.reverse_append, List.reverse_reverse, List.reverse_reverse]
  refine Parser.run_eq_ok.mpr ⟨⟨[], 0, []⟩, ?_, rfl⟩
  have hid : (declarations.filterMap id).map (Stmt.moved id) = declarations.filterMap id := by
    rw [funext Stmt.moved_id]
    exact List.map_id' _
  rw [← hwider, Parser.program, bind_of_ok hwhole, List.filterMap_append, ← Parser.filterMap_moved,
    ← Parser.filterMap_moved, hid]
  rfl

end Lox
