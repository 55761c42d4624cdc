import Lox.Proofs.Syntax.Acceptance.Program

/-!
# How deep parsing nests

A level of a program costs as many nested calls as there are functions of the grammar on the way
down to it, and there are no more than sixteen of those. A way around, from a function back to
itself, takes a token. So sixteen nested calls for each token are enough, and sixteen more for the
end, where nothing is found and the parser says so.

With that many nested calls, nothing stops the parser but the end of the tokens. A whole program
comes to its end, whatever the tokens are, and so does every declaration.
-/

namespace Lox.Parser

variable {α β : Type} {s : State} {input : Input} {len nesting : Nat}

/-- A parser that does not run out of nested calls on so many tokens or fewer. -/
def Fits (len : Nat) (p : Parse α) : Prop :=
  ∀ s, s.rest.length ≤ len → Ends p s
    (fun _ s' ↦ s'.rest.length ≤ s.rest.length)
    (fun abort s' ↦ s'.rest.length ≤ s.rest.length ∧ abort ≠ .tooDeep)

namespace Fits

variable {p : Parse α} {q : α → Parse β}

theorem of_le {fewer : Nat} (h : Fits len p) (hle : fewer ≤ len) : Fits fewer p :=
  fun s hs ↦ h s (Nat.le_trans hs hle)

theorem pure (a : α) : Fits len (Pure.pure a : Parse α) := fun _ _ ↦ Ends.pure (Nat.le_refl _)

theorem bind (hp : Fits len p) (hq : ∀ a, Fits len (q a)) : Fits len (p >>= q) := by
  intro s hs
  refine Ends.bind (Ends.mono (hp s hs) (fun a s₁ hle ↦ ?_) fun _ _ h ↦ h)
  exact Ends.mono (hq a s₁ (Nat.le_trans hle hs)) (fun _ s₂ hle' ↦ Nat.le_trans hle' hle)
    fun _ s₂ ⟨hle', hdeep⟩ ↦ ⟨Nat.le_trans hle' hle, hdeep⟩

theorem map {g : α → β} (hp : Fits len p) : Fits len (g <$> p) := by
  rw [← bind_pure_comp]
  exact hp.bind fun a ↦ pure (g a)

/-! ## Single tokens -/

theorem fail {error : SyntaxError} : Fits len (Parser.fail input error : Parse α) :=
  fun _ _ ↦ ⟨Nat.le_refl _, Abort.noConfusion⟩

theorem exhausted : Fits len (throw .exhausted : Parse α) :=
  fun _ _ ↦ Ends.throw ⟨Nat.le_refl _, Abort.noConfusion⟩

theorem report {t : Token} {error : SyntaxError} : Fits len (Parser.report t error) :=
  fun _ _ ↦ Nat.le_refl _

theorem check {k : Kind → Bool} : Fits len (Parser.check k) := fun _ _ ↦ Nat.le_refl _

theorem peek : Fits len (Parser.peek input) := fun _ _ ↦ Nat.le_refl _

theorem get : Fits len (MonadState.get : Parse State) := fun _ _ ↦ Nat.le_refl _

theorem advance : Fits len Parser.advance := fun s _ ↦ (List.tail_suffix s.rest).length_le

/-- A token that is accepted is one less for what follows. -/
theorem acceptIf {k : Kind → Bool} {q : Option Token → Parse α} (hnone : Fits len (q none))
    (hsome : 1 ≤ len → ∀ t, Fits (len - 1) (q (some t))) : Fits len (Parser.acceptIf k >>= q) := by
  intro s hs
  obtain ⟨rest, functions, errors⟩ := s
  cases rest with
  | nil => exact hnone _ hs
  | cons t rest =>
    by_cases ht : k t.kind = true
    · have hlen : rest.length + 1 ≤ len := hs
      rw [Ends, bind_of_ok (acceptIf_eq_some ht)]
      exact Ends.mono (hsome (by omega) t ⟨rest, functions, errors⟩ (Nat.le_sub_of_add_le hlen))
        (fun _ _ hle ↦ Nat.le_succ_of_le hle) fun _ _ h ↦ ⟨Nat.le_succ_of_le h.1, h.2⟩
    · rw [Ends, bind_of_ok (acceptIf_eq_none fun u hu ↦ by
        rw [← Option.mem_some_iff.mp hu]; exact Bool.eq_false_iff.mpr ht)]
      exact hnone _ hs

theorem accept {kind : Kind} {q : Option Token → Parse α} (hnone : Fits len (q none))
    (hsome : 1 ≤ len → ∀ t, Fits (len - 1) (q (some t))) : Fits len (Parser.accept kind >>= q) :=
  acceptIf hnone hsome

theorem expect {kind : Kind} {what : String} : Fits len (Parser.expect input kind what) :=
  accept fail fun _ t ↦ pure t

/-- A token that has to be there is one less for what follows. -/
theorem expecting {kind : Kind} {what : String} {q : Token → Parse α}
    (hq : 1 ≤ len → ∀ t, Fits (len - 1) (q t)) :
    Fits len (Parser.expect input kind what >>= q) := by
  rw [Parser.expect, bind_assoc]
  exact accept (fun _ _ ↦ ⟨Nat.le_refl _, Abort.noConfusion⟩) hq

/-- What is done with the next token, where there is one, and where there is none. -/
theorem looking {q : Token → Parse α} (hnone : Fits 0 (q input.finish))
    (hsome : 1 ≤ len → ∀ t, Fits len (q t)) : Fits len (Parser.peek input >>= q) := by
  intro s hs
  obtain ⟨rest, functions, errors⟩ := s
  cases rest with
  | nil => exact hnone _ (Nat.le_refl _)
  | cons t rest => exact hsome (Nat.le_trans (Nat.le_add_left _ _) hs) t _ hs

/-- A token that is taken is one less for what follows. -/
theorem taking {q : Parse α} (hq : Fits (len - 1) q) :
    Fits len (Parser.advance >>= fun _ ↦ q) := by
  intro s hs
  have htail : s.rest.tail.length ≤ s.rest.length := (List.tail_suffix s.rest).length_le
  refine Ends.mono (hq { s with rest := s.rest.tail } ?_) (fun _ s' hle ↦ Nat.le_trans hle htail)
    fun _ s' ⟨hle, hdeep⟩ ↦ ⟨Nat.le_trans hle htail, hdeep⟩
  simp only [List.length_tail]
  omega

theorem insideFunction (hp : Fits len p) : Fits len (Parser.insideFunction p) := by
  intro s hs
  rw [Ends, Parser.insideFunction]
  have h := hp { s with functions := s.functions + 1 } hs
  cases hr : p { s with functions := s.functions + 1 } with
  | ok a s' =>
    have hok := Ends.of_ok h hr
    exact hok
  | error abort s' =>
    have herror := Ends.of_error h hr
    exact herror

theorem recovering (hp : Fits len p) : Fits len (Parser.recovering p) := by
  intro s hs
  rw [Ends, Parser.recovering]
  cases h : p s with
  | ok a s' =>
    have hok := Ends.of_ok (hp s hs) h
    exact hok
  | error abort s' =>
    obtain ⟨hle, hdeep⟩ := Ends.of_error (hp s hs) h
    cases abort with
    | fault =>
      have hresume := ((resume_suffix_tail s'.rest).trans (List.tail_suffix _)).length_le
      exact Nat.le_trans hresume hle
    | tooDeep => exact absurd rfl hdeep
    | exhausted => exact ⟨hle, hdeep⟩

/-! ## Loops -/

theorem chain {operand : Parse Expr} {isOperator : Kind → Bool} {join : Expr → Token → Expr → Expr}
    (hoperand : Fits len operand) :
    ∀ bound left, Fits len (Parser.chain operand isOperator join bound left)
  | 0, _ => exhausted
  | bound + 1, left => by
    rw [Parser.chain]
    refine acceptIf (pure left) fun _ operator ↦ ?_
    exact (hoperand.bind fun right ↦ chain hoperand bound _).of_le (Nat.sub_le _ _)

theorem suffixes {arguments : Expr → Parse Expr}
    (harguments : 1 ≤ len → ∀ e, Fits (len - 1) (arguments e)) :
    ∀ bound operand, Fits len (Parser.suffixes input arguments bound operand)
  | 0, _ => exhausted
  | bound + 1, operand => by
    have ih := suffixes harguments bound
    rw [Parser.suffixes]
    refine accept (accept (pure operand) fun _ dot ↦ ?_) fun hlen paren ↦ ?_
    · exact expect.bind fun name ↦ (ih _).of_le (Nat.sub_le _ _)
    · exact (harguments hlen operand).bind fun e ↦ (ih e).of_le (Nat.sub_le _ _)

theorem reportIf {c : Prop} [Decidable c] {error : SyntaxError} (hp : Fits len p) :
    Fits len (do
      if c then Parser.report (← Parser.peek input) error
      p) := by
  by_cases h : c
  · rw [if_pos h]
    exact peek.bind fun _ ↦ report.bind fun _ ↦ hp
  · rw [if_neg h]
    exact hp

theorem commaSeparated {what : String} (hp : Fits len p) :
    ∀ bound room read, Fits len (Parser.commaSeparated input what p bound room read)
  | 0, _, _ => exhausted
  | bound + 1, room, read => by
    rw [Parser.commaSeparated]
    refine reportIf (hp.bind fun a ↦ accept (pure _) fun _ comma ↦ ?_)
    exact (commaSeparated hp bound _ _).of_le (Nat.sub_le _ _)

theorem listed {what : String} (hp : Fits len p) : Fits len (Parser.listed input what p) := by
  refine check.bind fun closes ↦ ?_
  cases closes with
  | true => exact pure _
  | false => exact commaSeparated hp _ _ _

theorem many {stops : Kind → Bool} (hp : Fits len p) :
    ∀ bound read, Fits len (Parser.many stops p bound read)
  | 0, _ => exhausted
  | bound + 1, read => by
    rw [Parser.many]
    refine check.bind fun more ↦ ?_
    cases more with
    | false => exact pure _
    | true => exact hp.bind fun a ↦ many hp bound _

end Fits

/-! ## Expressions

How many nested calls a function of the grammar needs beyond those for the tokens is ten less the
rank of what it reads. -/

structure FitsExpressions (input : Input) (nesting : Nat) : Prop where
  expression : ∀ len, 16 * len + 11 ≤ nesting → Fits len (Parser.expression input nesting)
  assignment : ∀ len, 16 * len + 10 ≤ nesting → Fits len (Parser.assignment input nesting)
  binary : ∀ level len, 16 * len + 10 ≤ nesting + Level.rank level →
    Fits len (Parser.binary input nesting level)
  unary : ∀ len, 16 * len + 3 ≤ nesting → Fits len (Parser.unary input nesting)
  call : ∀ len, 16 * len + 2 ≤ nesting → Fits len (Parser.call input nesting)
  callArguments : ∀ callee len, 16 * len + 12 ≤ nesting →
    Fits len (Parser.callArguments input nesting callee)
  primary : ∀ len, 16 * len + 1 ≤ nesting → Fits len (Parser.primary input nesting)

theorem fits_primary (hfinish : input.finish.kind = .eof)
    (hexpression : 1 ≤ len → Fits (len - 1) (Parser.expression input nesting)) :
    Fits len (Parser.primary input (nesting + 1)) := by
  rw [Parser.primary]
  refine .looking ?_ fun hpos t ↦ ?_
  · rw [hfinish]
    exact .fail
  · split
    case h_7 => exact .taking (.bind .expect fun _ ↦ .bind .expect fun _ ↦ .pure _)
    case h_9 => exact .taking (.bind (hexpression hpos) fun _ ↦ .bind .expect fun _ ↦ .pure _)
    case h_10 => exact .fail
    all_goals exact .taking (.pure _)

theorem fitsExpressions (hfinish : input.finish.kind = .eof) :
    ∀ nesting, FitsExpressions input nesting
  | 0 => ⟨fun _ _ ↦ by omega, fun _ _ ↦ by omega,
      fun level _ _ ↦ by have := level.rank_lt_unary; rw [Rank.unary] at this; omega,
      fun _ _ ↦ by omega, fun _ _ ↦ by omega, fun _ _ _ ↦ by omega, fun _ _ ↦ by omega⟩
  | nesting + 1 => by
    have ih := fitsExpressions hfinish nesting
    refine ⟨fun len hlen ↦ ?_, fun len hlen ↦ ?_, fun level len hlen ↦ ?_, fun len hlen ↦ ?_,
      fun len hlen ↦ ?_, fun callee len hlen ↦ ?_, fun len hlen ↦ ?_⟩
    · rw [Parser.expression]
      exact ih.assignment len (by omega)
    · have htarget := ih.binary .or len (by rw [Level.rank]; omega)
      rw [Parser.assignment]
      refine .bind htarget fun target ↦ .accept (.pure _) fun hpos equals ↦ ?_
      refine .bind (ih.assignment (len - 1) (by omega)) fun value ↦ ?_
      cases target
      case var | property => exact .pure _
      all_goals exact .bind .report fun _ ↦ .pure _
    · have hrank := level.rank_tighter
      rw [Parser.binary]
      cases htighter : level.tighter? with
      | none =>
        rw [htighter, Option.elim_none, Rank.unary] at hrank
        have hoperand := ih.unary len (by omega)
        exact .bind hoperand fun _ ↦ .chain hoperand _ _
      | some tighter =>
        rw [htighter, Option.elim_some] at hrank
        have hoperand := ih.binary tighter len (by omega)
        exact .bind hoperand fun _ ↦ .chain hoperand _ _
    · rw [Parser.unary]
      exact .acceptIf (ih.call len (by omega)) fun hpos operator ↦
        .map (ih.unary (len - 1) (by omega))
    · rw [Parser.call]
      exact .bind (ih.primary len (by omega)) fun operand ↦
        .suffixes (fun hpos e ↦ ih.callArguments e (len - 1) (by omega)) _ _
    · rw [Parser.callArguments]
      exact .bind (.listed (ih.expression len (by omega))) fun _ ↦ .bind .expect fun _ ↦ .pure _
    · exact fits_primary hfinish fun hpos ↦ ih.expression (len - 1) (by omega)

theorem fits_expressionUnless (hfinish : input.finish.kind = .eof) {stop : Kind}
    (hlen : 16 * len + 11 ≤ nesting) : Fits len (expressionUnless input stop nesting) := by
  refine .bind .check fun stops ↦ ?_
  cases stops with
  | true => exact .pure _
  | false => exact .map ((fitsExpressions hfinish nesting).expression len hlen)

/-! ## Statements -/

theorem fits_expressionStatement (hfinish : input.finish.kind = .eof) :
    ∀ {nesting}, 16 * len + 12 ≤ nesting → Fits len (expressionStatement input nesting)
  | nesting + 1, hlen => by
    rw [expressionStatement]
    exact .bind ((fitsExpressions hfinish nesting).expression len (by omega)) fun _ ↦
      .bind .expect fun _ ↦ .pure _

theorem fits_varDeclaration (hfinish : input.finish.kind = .eof) :
    ∀ {nesting}, 16 * len + 12 ≤ nesting → Fits len (varDeclaration input nesting)
  | nesting + 1, hlen => by
    rw [varDeclaration]
    have hrest : ∀ len (name : Token) (initializer : Option Expr), Fits len (do
        let _ ← expect input .semicolon "';' after variable declaration"
        return Stmt.var name initializer) := fun _ _ _ ↦ .bind .expect fun _ ↦ .pure _
    have hexpression := (fitsExpressions hfinish nesting).expression len (by omega)
    refine .bind .expect fun name ↦ .accept (hrest _ name none) fun _ equals ↦ ?_
    exact .bind (.map (hexpression.of_le (Nat.sub_le _ _))) (hrest _ name)

theorem fits_returnStatement (hfinish : input.finish.kind = .eof) {keyword : Token} :
    ∀ {nesting}, 16 * len + 12 ≤ nesting → Fits len (returnStatement input keyword nesting)
  | nesting + 1, hlen => by
    rw [returnStatement]
    have hrest : ∀ _ : Unit, Fits len (do
        let value ← expressionUnless input .semicolon nesting
        let _ ← expect input .semicolon "';' after return value"
        return Stmt.return keyword value) := fun _ ↦
      .bind (fits_expressionUnless hfinish (by omega)) fun _ ↦ .bind .expect fun _ ↦ .pure _
    refine .bind .get fun s ↦ ?_
    split
    · exact .bind .report hrest
    · exact hrest ()

theorem fits_functionHead (what : String) : Fits len (functionHead input what) := by
  rw [functionHead]
  exact .bind .expect fun _ ↦ .bind .expect fun _ ↦ .bind (.listed .expect) fun _ ↦
    .bind .expect fun _ ↦ .pure _

structure FitsStatements (input : Input) (nesting : Nat) : Prop where
  declaration : ∀ len, 16 * len + 14 ≤ nesting → Fits len (Parser.declaration input nesting)
  classDeclaration : ∀ len, 16 * len + 1 ≤ nesting →
    Fits len (Parser.classDeclaration input nesting)
  function : ∀ what len, 16 * len + 1 ≤ nesting → Fits len (Parser.function input what nesting)
  statement : ∀ len, 16 * len + 13 ≤ nesting → Fits len (Parser.statement input nesting)
  forStatement : ∀ len, 16 * len + 1 ≤ nesting → Fits len (Parser.forStatement input nesting)
  block : ∀ len, 16 * len + 15 ≤ nesting → Fits len (Parser.block input nesting)

namespace FitsStatements

theorem attempt (hfinish : input.finish.kind = .eof) (ih : FitsStatements input nesting)
    (hlen : 16 * len + 13 ≤ nesting) : Fits len (Parser.attempt input nesting) := by
  rw [Parser.attempt]
  refine .looking ?_ fun hpos t ↦ ?_
  · rw [hfinish]
    exact ih.statement 0 (by omega)
  · split
    · exact .taking (fits_varDeclaration hfinish (by omega))
    · exact .taking (ih.classDeclaration (len - 1) (by omega))
    · exact .taking (.map (ih.function _ (len - 1) (by omega)))
    · exact ih.statement len hlen

theorem classDeclaration_succ (ih : FitsStatements input nesting) (hlen : 16 * len ≤ nesting) :
    Fits len (Parser.classDeclaration input (nesting + 1)) := by
  rw [Parser.classDeclaration]
  refine .expecting fun hpos name ↦ ?_
  have hmethod := ih.function "method" (len - 1) (by omega)
  have hrest : ∀ superclass, Fits (len - 1) (do
      let _ ← expect input .leftBrace "'\x7b' before class body"
      let methods ← many (fun k ↦ decide (k = .rightBrace))
        (Parser.function input "method" nesting) input.size []
      let _ ← expect input .rightBrace "'\x7d' after class body"
      return Stmt.class name superclass methods) := fun superclass ↦
    .bind .expect fun _ ↦ .bind (.many hmethod _ _) fun _ ↦ .bind .expect fun _ ↦ .pure _
  refine .accept (hrest none) fun _ less ↦ .bind (.map .expect) fun superclass ↦ ?_
  exact (hrest superclass).of_le (Nat.sub_le _ _)

theorem function_succ {what : String} (ih : FitsStatements input nesting)
    (hlen : 16 * len ≤ nesting) : Fits len (Parser.function input what (nesting + 1)) := by
  rw [Parser.function, functionHead, bind_assoc]
  refine .expecting fun hpos name ↦ .bind ?_ fun head ↦ ?_
  · exact .bind .expect fun _ ↦ .bind (.listed .expect) fun _ ↦ .bind .expect fun _ ↦ .pure _
  · exact .bind (.insideFunction (ih.statement (len - 1) (by omega))) fun _ ↦ .pure _

theorem forStatement_succ (hfinish : input.finish.kind = .eof) (ih : FitsStatements input nesting)
    (hlen : 16 * len ≤ nesting) : Fits len (Parser.forStatement input (nesting + 1)) := by
  rw [Parser.forStatement]
  refine .expecting fun hpos _ ↦ ?_
  have hbody := ih.statement (len - 1) (by omega)
  have hrest : ∀ initializer, Fits (len - 1) (do
      let condition ← expressionUnless input .semicolon nesting
      let _ ← expect input .semicolon "';' after loop condition"
      let increment ← expressionUnless input .rightParen nesting
      let _ ← expect input .rightParen "')' after for clauses"
      return Stmt.forLoop initializer condition increment (← Parser.statement input nesting)) :=
    fun initializer ↦ .bind (fits_expressionUnless hfinish (by omega)) fun _ ↦
      .bind .expect fun _ ↦ .bind (fits_expressionUnless hfinish (by omega)) fun _ ↦
        .bind .expect fun _ ↦ .bind hbody fun _ ↦ .pure _
  refine .bind .peek fun t ↦ ?_
  split
  · exact .bind .advance fun _ ↦ hrest none
  · exact .bind .advance fun _ ↦
      .bind (.map (fits_varDeclaration hfinish (by omega))) hrest
  · exact .bind (.map (fits_expressionStatement hfinish (by omega))) hrest

theorem statement_succ (hfinish : input.finish.kind = .eof) (ih : FitsStatements input nesting)
    (hlen : 16 * len + 12 ≤ nesting) : Fits len (Parser.statement input (nesting + 1)) := by
  rw [Parser.statement]
  refine .looking ?_ fun hpos t ↦ ?_
  · rw [hfinish]
    exact fits_expressionStatement hfinish (by omega)
  have hexpression := (fitsExpressions hfinish nesting).expression (len - 1) (by omega)
  have hstatement := ih.statement (len - 1) (by omega)
  split
  · exact .taking (ih.forStatement (len - 1) (by omega))
  · exact .taking (.bind .expect fun _ ↦ .bind hexpression fun _ ↦ .bind .expect fun _ ↦
      .bind hstatement fun _ ↦ .pure _)
  · refine .taking (.bind .expect fun _ ↦ .bind hexpression fun _ ↦ .bind .expect fun _ ↦
      .bind hstatement fun _ ↦ .accept (.pure _) fun _ _ ↦ ?_)
    exact .bind (hstatement.of_le (Nat.sub_le _ _)) fun _ ↦ .pure _
  · exact .taking (.bind hexpression fun _ ↦ .bind .expect fun _ ↦ .pure _)
  · exact .taking (fits_returnStatement hfinish (by omega))
  · exact .taking (.map (ih.block (len - 1) (by omega)))
  · exact fits_expressionStatement hfinish hlen

theorem of_nesting (hfinish : input.finish.kind = .eof) : ∀ nesting, FitsStatements input nesting
  | 0 => ⟨fun _ _ ↦ by omega, fun _ _ ↦ by omega, fun _ _ _ ↦ by omega, fun _ _ ↦ by omega,
      fun _ _ ↦ by omega, fun _ _ ↦ by omega⟩
  | nesting + 1 =>
    have ih := of_nesting hfinish nesting
    { declaration := fun len hlen ↦ by
        rw [declaration_eq_recovering]
        exact .recovering (ih.attempt hfinish (by omega))
      classDeclaration := fun len hlen ↦ classDeclaration_succ ih (by omega)
      function := fun what len hlen ↦ function_succ ih (by omega)
      statement := fun len hlen ↦ statement_succ hfinish ih (by omega)
      forStatement := fun len hlen ↦ forStatement_succ hfinish ih (by omega)
      block := fun len hlen ↦ by
        rw [Parser.block]
        exact .bind (.many (ih.declaration len (by omega)) _ _) fun _ ↦
          .bind .expect fun _ ↦ .pure _ }

end FitsStatements

end Lox.Parser
