import Lox.Proofs.CutShort
import Lox.Proofs.Mirror
import Lox.Syntax.Parser

/-!
# Room

A parser that may make more nested calls, or more rounds in its loops, does the same as before,
except where it gave up for want of them: there it goes on, and keeps what it has complained about.
So the bounds decide whether there is a result, and never which.

The two bounds are compared in one go. What the first parser may be stopped by is a parameter: a
bound that is not the one that may stop it has to be the same for the second parser.

Nor does it matter to a parser what has been complained about before. Its own complaints come in
front of these, which is also why it takes none of them back.
-/

namespace Lox.Parser

variable {α β : Type} {stop : Abort} {input wider : Input} {nesting deeper bound bound' : Nat}

/-! ## Complaints -/

/-- The state of a parser if some complaints have been made before. -/
def State.after (before : List (Token × SyntaxError)) (s : State) : State :=
  { s with errors := s.errors ++ before }

/-- No complaint is taken back. -/
def State.Keeps (s s' : State) : Prop := s.errors <:+ s'.errors

theorem State.lasting_keeps : Lasting State.Keeps :=
  ⟨fun _ ↦ List.suffix_rfl, fun h h' ↦ List.IsSuffix.trans h h'⟩

/-- A parser takes no notice of what has been complained about before. -/
def Unaware (p : Parse α) : Prop := ∀ before, Mirrors (State.after before) id id p p

theorem Unaware.throw (abort : Abort) : Unaware (MonadExcept.throw abort : Parse α) :=
  fun _ ↦ .throw rfl

/-- All complaints there are have been made before. -/
theorem Unaware.keeping {p : Parse α} (h : Unaware p) (s : State) :
    Keeping State.Keeps p s s := by
  have hsame : p s = carried (State.after s.errors) id id (p { s with errors := [] }) :=
    h s.errors { s with errors := [] }
  rw [Keeping, Ends, hsame]
  cases p { s with errors := [] } <;> exact List.suffix_append _ s.errors

/-! ## Bounds -/

/-- A bound by which a parser is stopped in a certain way may be greater for the second parser if
that is the way in which the first one may be stopped. -/
def Within (stop abort : Abort) (bound bound' : Nat) : Prop :=
  bound = bound' ∨ stop = abort ∧ bound ≤ bound'

namespace Within

variable {abort : Abort}

theorem refl : Within stop abort bound bound := .inl rfl

theorem of_le (hle : bound ≤ bound') : Within stop stop bound bound' := .inr ⟨rfl, hle⟩

theorem of_succ (h : Within stop abort (bound + 1) (bound' + 1)) :
    Within stop abort bound bound' :=
  h.imp Nat.succ.inj fun ⟨hstop, hle⟩ ↦ ⟨hstop, Nat.le_of_succ_le_succ hle⟩

theorem not_succ_zero (h : Within stop abort (bound + 1) 0) : False := by
  rcases h with heq | ⟨-, hle⟩
  · exact Nat.succ_ne_zero bound heq
  · exact Nat.not_succ_le_zero bound hle

end Within

/-- The second input is the first one with perhaps more room for loops. -/
structure Roomier (stop : Abort) (input wider : Input) : Prop where
  finish : wider.finish = input.finish
  size : Within stop .exhausted input.size wider.size

theorem Roomier.refl (stop : Abort) (input : Input) : Roomier stop input input := ⟨rfl, .refl⟩

/-- Two parsers do the same wherever the first one is not stopped for want of room. -/
structure Extended (stop : Abort) (p q : Parse α) : Prop where
  unaware : Unaware q
  cutShort : CutShort State.Keeps stop p q

namespace Extended

variable {p q : Parse α} {f g : α → Parse β}

/-- What the second parser does if it has made some complaints before. -/
theorem after (h : Extended stop p q) (before : List (Token × SyntaxError)) (s : State) :
    (∃ s', p s = .error stop s') ∨
      q (s.after before) = carried (State.after before) id id (p s) := by
  rcases h.cutShort.agrees s with hsame | ⟨s', hstop, -⟩
  · exact .inr (by rw [h.unaware before s, hsame])
  · exact .inl ⟨s', hstop⟩

theorem of_unaware (h : Unaware p) : Extended stop p p := ⟨h, .of_keeping h.keeping⟩

theorem pure (a : α) : Extended stop (Pure.pure a) (Pure.pure a) := of_unaware fun _ ↦ .pure rfl

theorem bind (h : Extended stop p q) (h' : ∀ a, Extended stop (f a) (g a)) :
    Extended stop (p >>= f) (q >>= g) :=
  ⟨fun before ↦ (h.unaware before).bind fun a ↦ (h' a).unaware before,
    h.cutShort.bind State.lasting_keeps fun a ↦ (h' a).cutShort⟩

theorem map {f : α → β} (h : Extended stop p q) : Extended stop (f <$> p) (f <$> q) := by
  rw [← bind_pure_comp, ← bind_pure_comp]
  exact bind h fun a ↦ pure (f a)

/-! ## Where a bound is reached -/

/-- What is not allowed to go on at all is stopped, unless the second parser is stopped as well. -/
theorem of_stopped {abort : Abort} {q : Nat → Parse α} (hq : q 0 = throw abort)
    (hunaware : Unaware (q bound)) (h : Within stop abort 0 bound) :
    Extended stop (throw abort : Parse α) (q bound) := by
  rcases h with rfl | ⟨rfl, -⟩
  · rw [hq]
    exact of_unaware (.throw abort)
  · exact ⟨hunaware, .of_stopped hunaware.keeping⟩

/-- Parsers with a bound that falls by one, by comparison of what they do with the bounds for what
is left. The second parser has to be compared with itself as well, for the case that only the first
one has reached its bound. -/
theorem of_bound {ι : Type} {abort : Abort} {p q : Nat → ι → Parse α}
    (hp : ∀ i, p 0 i = throw abort) (hq : ∀ i, q 0 i = throw abort)
    (h : ∀ bound bound', Within stop abort bound bound' →
      (∀ i, Extended stop (p bound i) (q bound' i)) →
      ∀ i, Extended stop (p (bound + 1) i) (q (bound' + 1) i))
    (hself : ∀ bound, (∀ i, Extended stop (q bound i) (q bound i)) →
      ∀ i, Extended stop (q (bound + 1) i) (q (bound + 1) i)) :
    ∀ bound bound', Within stop abort bound bound' →
    ∀ i, Extended stop (p bound i) (q bound' i) := by
  have hsame : ∀ bound i, Extended stop (q bound i) (q bound i) := by
    intro bound
    induction bound with
    | zero => exact fun i ↦ of_unaware (hq i ▸ .throw abort)
    | succ bound ih => exact hself bound ih
  intro bound
  induction bound with
  | zero =>
    intro bound' hwithin i
    rw [hp i]
    exact of_stopped (q := fun bound ↦ q bound i) (hq i) (hsame bound' i).unaware hwithin
  | succ bound ih =>
    intro bound' hwithin
    cases bound' with
    | zero => exact hwithin.not_succ_zero.elim
    | succ bound' => exact h bound bound' hwithin.of_succ (ih bound' hwithin.of_succ)

/-- Parsers that make nested calls, for all inputs at once. -/
theorem of_within {p : Input → Nat → Parse α} (hzero : ∀ input, p input 0 = Parser.tooDeep)
    (h : ∀ {input wider nesting deeper}, Roomier stop input wider →
      Within stop .tooDeep nesting deeper →
      Extended stop (p input (nesting + 1)) (p wider (deeper + 1)))
    (hroom : Roomier stop input wider) : ∀ nesting deeper, Within stop .tooDeep nesting deeper →
      Extended stop (p input nesting) (p wider deeper) := fun nesting deeper hwithin ↦
  of_bound (p := fun nesting (_ : Unit) ↦ p input nesting) (q := fun deeper _ ↦ p wider deeper)
    (fun _ ↦ hzero input) (fun _ ↦ hzero wider) (fun _ _ hwithin _ _ ↦ h hroom hwithin)
    (fun _ _ _ ↦ h (.refl stop wider) .refl) nesting deeper hwithin ()

/-! ## Single tokens -/

theorem peek (hfinish : wider.finish = input.finish) :
    Extended stop (Parser.peek input) (Parser.peek wider) := by
  have hsame : Parser.peek wider = Parser.peek input := by
    funext s
    rw [Parser.peek, Parser.peek, hfinish]
  rw [hsame]
  exact of_unaware fun _ _ ↦ rfl

theorem advance : Extended stop Parser.advance Parser.advance := of_unaware fun _ _ ↦ rfl

theorem check {kinds : Kind → Bool} : Extended stop (Parser.check kinds) (Parser.check kinds) :=
  of_unaware fun _ _ ↦ rfl

theorem acceptIf {kinds : Kind → Bool} :
    Extended stop (Parser.acceptIf kinds) (Parser.acceptIf kinds) := by
  refine of_unaware fun before s ↦ ?_
  obtain ⟨rest, functions, errors⟩ := s
  cases rest with
  | nil => rfl
  | cons t rest =>
    simp only [Parser.acceptIf, State.after]
    by_cases ht : kinds t.kind = true
    · rw [if_pos ht, if_pos ht]
      rfl
    · rw [if_neg ht, if_neg ht]
      rfl

theorem accept {kind : Kind} : Extended stop (Parser.accept kind) (Parser.accept kind) := acceptIf

theorem report {t : Token} {error : SyntaxError} :
    Extended stop (Parser.report t error) (Parser.report t error) := of_unaware fun _ _ ↦ rfl

theorem fail {error : SyntaxError} (hfinish : wider.finish = input.finish) :
    Extended stop (Parser.fail input error : Parse α) (Parser.fail wider error) := by
  have hsame : (Parser.fail wider error : Parse α) = Parser.fail input error := by
    funext s
    rw [Parser.fail, Parser.fail, hfinish]
  rw [hsame]
  exact of_unaware fun _ _ ↦ rfl

theorem expect {kind : Kind} {what : String} (hfinish : wider.finish = input.finish) :
    Extended stop (Parser.expect input kind what) (Parser.expect wider kind what) := by
  rw [Parser.expect, Parser.expect]
  refine bind accept fun t? ↦ ?_
  cases t? with
  | none => exact fail hfinish
  | some t => exact pure t

/-- What depends on the state depends on it apart from the complaints. -/
theorem get {f g : State → Parse α} (h : ∀ s, Extended stop (f s) (g s))
    (hg : ∀ before s, g (s.after before) = g s) :
    Extended stop (MonadState.get >>= f) (MonadState.get >>= g) where
  unaware before s := (congrArg (· (s.after before)) (hg before s)).trans ((h s).unaware before s)
  cutShort := ⟨fun s ↦ (h s).cutShort.keeping s, fun s ↦ (h s).cutShort.agrees s⟩

theorem recovering (h : Extended stop p q) (hstop : stop ≠ .fault) :
    Extended stop (Parser.recovering p) (Parser.recovering q) := by
  have hkeeping : ∀ {s s₁}, Keeping State.Keeps q s s₁ →
      Keeping State.Keeps (Parser.recovering q) s s₁ := by
    intro s s₁ h
    rw [Keeping, Ends, Parser.recovering]
    cases hq : q s with
    | ok a s' => exact h.of_ok hq
    | error abort s' =>
      have hkept : State.Keeps s₁ s' := h.of_error hq
      cases abort <;> exact hkept
  refine ⟨fun before s ↦ ?_, fun s ↦ hkeeping (h.cutShort.keeping s), fun s ↦ ?_⟩
  · rw [Parser.recovering, Parser.recovering, h.unaware before s]
    cases q s with
    | ok a s' => rfl
    | error abort s' => cases abort <;> rfl
  · rcases h.cutShort.agrees s with hsame | ⟨s', hs', hkept⟩
    · exact .inl (by rw [Parser.recovering, Parser.recovering, hsame])
    · refine .inr ⟨s', ?_, hkeeping hkept⟩
      rw [Parser.recovering, hs']
      cases stop with
      | fault => exact absurd rfl hstop
      | tooDeep | exhausted => rfl

theorem insideFunction (h : Extended stop p q) :
    Extended stop (Parser.insideFunction p) (Parser.insideFunction q) := by
  have hkeeping : ∀ {s s₁ : State},
      Keeping State.Keeps q { s with functions := s.functions + 1 } s₁ →
      Keeping State.Keeps (Parser.insideFunction q) s { s₁ with functions := s.functions } := by
    intro s s₁ h
    rw [Keeping, Ends, Parser.insideFunction]
    cases hq : q { s with functions := s.functions + 1 } with
    | ok a s' =>
      have hkept : State.Keeps s₁ s' := h.of_ok hq
      exact hkept
    | error abort s' =>
      have hkept : State.Keeps s₁ s' := h.of_error hq
      exact hkept
  refine ⟨fun before s ↦ ?_, fun s ↦ hkeeping (h.cutShort.keeping _), fun s ↦ ?_⟩
  · have hinside : q { s.after before with functions := (s.after before).functions + 1 }
        = carried (State.after before) id id (q { s with functions := s.functions + 1 }) :=
      h.unaware before { s with functions := s.functions + 1 }
    rw [Parser.insideFunction, Parser.insideFunction, hinside]
    cases q { s with functions := s.functions + 1 } <;> rfl
  · rcases h.cutShort.agrees { s with functions := s.functions + 1 } with hsame | ⟨s', hs', hkept⟩
    · exact .inl (by rw [Parser.insideFunction, Parser.insideFunction, hsame])
    · exact .inr ⟨_, by rw [Parser.insideFunction, hs'], hkeeping hkept⟩

/-! ## Loops -/

theorem chain_succ {p q : Parse Expr} {isOperator : Kind → Bool} {join : Expr → Token → Expr → Expr}
    (h : Extended stop p q) (ih : ∀ left, Extended stop
      (Parser.chain p isOperator join bound left) (Parser.chain q isOperator join bound' left))
    (left : Expr) : Extended stop (Parser.chain p isOperator join (bound + 1) left)
      (Parser.chain q isOperator join (bound' + 1) left) := by
  rw [Parser.chain, Parser.chain]
  refine bind acceptIf fun operator? ↦ ?_
  cases operator? with
  | none => exact pure left
  | some operator => exact bind h fun right ↦ ih _

theorem chain {p q : Parse Expr} {isOperator : Kind → Bool} {join : Expr → Token → Expr → Expr}
    (h : Extended stop p q) : ∀ bound bound', Within stop .exhausted bound bound' → ∀ left,
      Extended stop (Parser.chain p isOperator join bound left)
        (Parser.chain q isOperator join bound' left) :=
  of_bound (fun _ ↦ rfl) (fun _ ↦ rfl) (fun _ _ _ ih ↦ chain_succ h ih)
    fun _ ih ↦ chain_succ (of_unaware h.unaware) ih

theorem suffixes_succ {p q : Expr → Parse Expr} (hfinish : wider.finish = input.finish)
    (h : ∀ e, Extended stop (p e) (q e)) (ih : ∀ operand, Extended stop
      (Parser.suffixes input p bound operand) (Parser.suffixes wider q bound' operand))
    (operand : Expr) : Extended stop (Parser.suffixes input p (bound + 1) operand)
      (Parser.suffixes wider q (bound' + 1) operand) := by
  rw [Parser.suffixes, Parser.suffixes]
  refine bind accept fun paren? ↦ ?_
  cases paren? with
  | some _ => exact bind (h operand) ih
  | none =>
    refine bind accept fun dot? ↦ ?_
    cases dot? with
    | none => exact pure operand
    | some _ => exact bind (expect hfinish) fun name ↦ ih _

theorem suffixes {p q : Expr → Parse Expr} (hfinish : wider.finish = input.finish)
    (h : ∀ e, Extended stop (p e) (q e)) :
    ∀ bound bound', Within stop .exhausted bound bound' → ∀ operand, Extended stop
      (Parser.suffixes input p bound operand) (Parser.suffixes wider q bound' operand) :=
  of_bound (fun _ ↦ rfl) (fun _ ↦ rfl) (fun _ _ _ ih ↦ suffixes_succ hfinish h ih)
    fun _ ih ↦ suffixes_succ rfl (fun e ↦ of_unaware (h e).unaware) ih

theorem many_succ {stops : Kind → Bool} (h : Extended stop p q) (ih : ∀ read, Extended stop
      (Parser.many stops p bound read) (Parser.many stops q bound' read)) (read : List α) :
    Extended stop (Parser.many stops p (bound + 1) read)
      (Parser.many stops q (bound' + 1) read) := by
  rw [Parser.many, Parser.many]
  refine bind check fun more ↦ ?_
  cases more with
  | false => exact pure read.reverse
  | true => exact bind h fun a ↦ ih _

theorem many {stops : Kind → Bool} (h : Extended stop p q) :
    ∀ bound bound', Within stop .exhausted bound bound' → ∀ read, Extended stop
      (Parser.many stops p bound read) (Parser.many stops q bound' read) :=
  of_bound (fun _ ↦ rfl) (fun _ ↦ rfl) (fun _ _ _ ih ↦ many_succ h ih)
    fun _ ih ↦ many_succ (of_unaware h.unaware) ih

theorem reportIf {c : Prop} [Decidable c] {error : SyntaxError}
    (hfinish : wider.finish = input.finish) (h : Extended stop p q) :
    Extended stop (do
      if c then Parser.report (← Parser.peek input) error
      p) (do
      if c then Parser.report (← Parser.peek wider) error
      q) := by
  by_cases hc : c
  · rw [if_pos hc, if_pos hc]
    exact bind (peek hfinish) fun _ ↦ bind report fun _ ↦ h
  · rw [if_neg hc, if_neg hc]
    exact h

theorem commaSeparated_succ {what : String} (hfinish : wider.finish = input.finish)
    (h : Extended stop p q) (ih : ∀ i : Nat × List α, Extended stop
      (Parser.commaSeparated input what p bound i.1 i.2)
      (Parser.commaSeparated wider what q bound' i.1 i.2)) (i : Nat × List α) :
    Extended stop (Parser.commaSeparated input what p (bound + 1) i.1 i.2)
      (Parser.commaSeparated wider what q (bound' + 1) i.1 i.2) := by
  rw [Parser.commaSeparated, Parser.commaSeparated]
  refine reportIf hfinish (bind h fun a ↦ bind accept fun comma? ↦ ?_)
  cases comma? with
  | none => exact pure _
  | some _ => exact ih (i.1 - 1, a :: i.2)

theorem commaSeparated {what : String} (hfinish : wider.finish = input.finish)
    (h : Extended stop p q) :
    ∀ bound bound', Within stop .exhausted bound bound' → ∀ i : Nat × List α, Extended stop
      (Parser.commaSeparated input what p bound i.1 i.2)
      (Parser.commaSeparated wider what q bound' i.1 i.2) :=
  of_bound (fun _ ↦ rfl) (fun _ ↦ rfl) (fun _ _ _ ih ↦ commaSeparated_succ hfinish h ih)
    fun _ ih ↦ commaSeparated_succ rfl (of_unaware h.unaware) ih

theorem listed {what : String} (hroom : Roomier stop input wider) (h : Extended stop p q) :
    Extended stop (Parser.listed input what p) (Parser.listed wider what q) := by
  rw [Parser.listed, Parser.listed]
  refine bind check fun closes ↦ ?_
  cases closes with
  | true => exact pure []
  | false => exact commaSeparated hroom.finish h _ _ hroom.size (maxArguments, [])

end Extended

/-! ## Expressions -/

structure ExtendsExpressions (stop : Abort)
    (input wider : Input) (nesting deeper : Nat) : Prop where
  expression : Extended stop (Parser.expression input nesting)
    (Parser.expression wider deeper)
  assignment : Extended stop (Parser.assignment input nesting)
    (Parser.assignment wider deeper)
  binary : ∀ level, Extended stop (Parser.binary input nesting level)
    (Parser.binary wider deeper level)
  unary : Extended stop (Parser.unary input nesting) (Parser.unary wider deeper)
  call : Extended stop (Parser.call input nesting) (Parser.call wider deeper)
  callArguments : ∀ callee, Extended stop (Parser.callArguments input nesting callee)
    (Parser.callArguments wider deeper callee)
  primary : Extended stop (Parser.primary input nesting) (Parser.primary wider deeper)

namespace ExtendsExpressions

theorem primary_succ (hfinish : wider.finish = input.finish)
    (hexpression : Extended stop (Parser.expression input nesting)
      (Parser.expression wider deeper)) :
    Extended stop (Parser.primary input (nesting + 1))
      (Parser.primary wider (deeper + 1)) := by
  rw [Parser.primary, Parser.primary]
  refine .bind (.peek hfinish) fun t ↦ ?_
  split
  case h_7 =>
    exact .bind .advance fun _ ↦ .bind (.expect hfinish) fun _ ↦ .bind (.expect hfinish) fun _ ↦
      .pure _
  case h_9 =>
    exact .bind .advance fun _ ↦ .bind hexpression fun _ ↦ .bind (.expect hfinish) fun _ ↦ .pure _
  case h_10 => exact .fail hfinish
  all_goals exact .bind .advance fun _ ↦ .pure _

/-- One more nested call on either side. -/
theorem succ (hroom : Roomier stop input wider)
    (ih : ExtendsExpressions stop input wider nesting deeper) :
    ExtendsExpressions stop input wider (nesting + 1) (deeper + 1) where
  expression := by
    rw [Parser.expression, Parser.expression]
    exact ih.assignment
  assignment := by
    rw [Parser.assignment, Parser.assignment]
    refine .bind (ih.binary .or) fun target ↦ .bind .accept fun equals? ↦ ?_
    cases equals? with
    | none => exact .pure target
    | some equals =>
      refine .bind ih.assignment fun value ↦ ?_
      cases target
      case var | property => exact .pure _
      all_goals exact .bind .report fun _ ↦ .pure _
  binary := fun level ↦ by
    rw [Parser.binary, Parser.binary]
    cases level.tighter? with
    | none => exact .bind ih.unary fun left ↦ .chain ih.unary _ _ hroom.size left
    | some tighter =>
      exact .bind (ih.binary tighter) fun left ↦
        .chain (ih.binary tighter) _ _ hroom.size left
  unary := by
    rw [Parser.unary, Parser.unary]
    refine .bind .acceptIf fun operator? ↦ ?_
    cases operator? with
    | none => exact ih.call
    | some operator => exact .map ih.unary
  call := by
    rw [Parser.call, Parser.call]
    exact .bind ih.primary fun operand ↦
      .suffixes hroom.finish ih.callArguments _ _ hroom.size operand
  callArguments := fun callee ↦ by
    rw [Parser.callArguments, Parser.callArguments]
    exact .bind (.listed hroom ih.expression) fun _ ↦
      .bind (.expect hroom.finish) fun _ ↦ .pure _
  primary := primary_succ hroom.finish ih.expression

theorem refl (input : Input) : ∀ nesting, ExtendsExpressions stop input input nesting nesting
  | 0 =>
    { expression := .of_unaware (.throw .tooDeep)
      assignment := .of_unaware (.throw .tooDeep)
      binary := fun _ ↦ .of_unaware (.throw .tooDeep)
      unary := .of_unaware (.throw .tooDeep)
      call := .of_unaware (.throw .tooDeep)
      callArguments := fun _ ↦ .of_unaware (.throw .tooDeep)
      primary := .of_unaware (.throw .tooDeep) }
  | nesting + 1 => (refl input nesting).succ (.refl stop input)

theorem of_within (hroom : Roomier stop input wider) :
    ∀ nesting deeper, Within stop .tooDeep nesting deeper →
      ExtendsExpressions stop input wider nesting deeper
  | 0, deeper, h =>
    have hself : ExtendsExpressions stop wider wider deeper deeper := refl wider deeper
    { expression := .of_stopped (q := Parser.expression wider) rfl hself.expression.unaware h
      assignment := .of_stopped (q := Parser.assignment wider) rfl hself.assignment.unaware h
      binary := fun level ↦
        .of_stopped (q := fun n ↦ Parser.binary wider n level) rfl (hself.binary level).unaware h
      unary := .of_stopped (q := Parser.unary wider) rfl hself.unary.unaware h
      call := .of_stopped (q := Parser.call wider) rfl hself.call.unaware h
      callArguments := fun callee ↦ .of_stopped (q := fun n ↦ Parser.callArguments wider n callee)
        rfl (hself.callArguments callee).unaware h
      primary := .of_stopped (q := Parser.primary wider) rfl hself.primary.unaware h }
  | _ + 1, 0, h => h.not_succ_zero.elim
  | nesting + 1, deeper + 1, h => (of_within hroom nesting deeper h.of_succ).succ hroom

end ExtendsExpressions

theorem extended_expressionUnless {stop' : Kind} (hroom : Roomier stop input wider)
    (h : Within stop .tooDeep nesting deeper) :
    Extended stop (expressionUnless input stop' nesting)
      (expressionUnless wider stop' deeper) := by
  rw [expressionUnless, expressionUnless]
  refine .bind .check fun stops ↦ ?_
  cases stops with
  | true => exact .pure none
  | false => exact .map (ExtendsExpressions.of_within hroom nesting deeper h).expression

/-! ## Statements -/

theorem extended_expressionStatement (hroom : Roomier stop input wider) :
    ∀ nesting deeper, Within stop .tooDeep nesting deeper → Extended stop
      (expressionStatement input nesting) (expressionStatement wider deeper) := by
  refine .of_within (fun _ ↦ rfl) (fun {input wider nesting deeper} hroom h ↦ ?_) hroom
  rw [expressionStatement, expressionStatement]
  exact .bind (ExtendsExpressions.of_within hroom nesting deeper h).expression fun _ ↦
    .bind (.expect hroom.finish) fun _ ↦ .pure _

theorem extended_varDeclaration (hroom : Roomier stop input wider) :
    ∀ nesting deeper, Within stop .tooDeep nesting deeper → Extended stop
      (varDeclaration input nesting) (varDeclaration wider deeper) := by
  refine .of_within (fun _ ↦ rfl) (fun {input wider nesting deeper} hroom h ↦ ?_) hroom
  rw [varDeclaration, varDeclaration]
  have hrest : ∀ (name : Token) (initializer : Option Expr), Extended stop (do
        let _ ← expect input .semicolon "';' after variable declaration"
        return Stmt.var name initializer) (do
        let _ ← expect wider .semicolon "';' after variable declaration"
        return Stmt.var name initializer) :=
    fun _ _ ↦ .bind (.expect hroom.finish) fun _ ↦ .pure _
  refine .bind (.expect hroom.finish) fun name ↦ .bind .accept fun equals? ↦ ?_
  cases equals? with
  | none => exact hrest name none
  | some _ =>
    exact .bind (.map (ExtendsExpressions.of_within hroom nesting deeper h).expression) (hrest name)

theorem extended_returnStatement (hroom : Roomier stop input wider) (keyword : Token) :
    ∀ nesting deeper, Within stop .tooDeep nesting deeper → Extended stop
      (returnStatement input keyword nesting) (returnStatement wider keyword deeper) := by
  refine .of_within (p := fun input ↦ returnStatement input keyword) (fun _ ↦ rfl)
    (fun {input wider nesting deeper} hroom h ↦ ?_) hroom
  rw [returnStatement, returnStatement]
  have hrest : Extended stop (do
        let value ← expressionUnless input .semicolon nesting
        let _ ← expect input .semicolon "';' after return value"
        return Stmt.return keyword value) (do
        let value ← expressionUnless wider .semicolon deeper
        let _ ← expect wider .semicolon "';' after return value"
        return Stmt.return keyword value) :=
    .bind (extended_expressionUnless hroom h) fun _ ↦ .bind (.expect hroom.finish) fun _ ↦ .pure _
  refine .get (fun s ↦ ?_) fun _ _ ↦ rfl
  split
  · exact .bind .report fun _ ↦ hrest
  · exact hrest

theorem extended_functionHead (hroom : Roomier stop input wider) (what : String) :
    Extended stop (functionHead input what) (functionHead wider what) := by
  rw [functionHead, functionHead]
  exact .bind (.expect hroom.finish) fun _ ↦ .bind (.expect hroom.finish) fun _ ↦
    .bind (.listed hroom (.expect hroom.finish)) fun _ ↦ .bind (.expect hroom.finish) fun _ ↦
      .pure _

structure ExtendsStatements (stop : Abort)
    (input wider : Input) (nesting deeper : Nat) : Prop where
  declaration : Extended stop (Parser.declaration input nesting)
    (Parser.declaration wider deeper)
  classDeclaration : Extended stop (Parser.classDeclaration input nesting)
    (Parser.classDeclaration wider deeper)
  function : ∀ what, Extended stop (Parser.function input what nesting)
    (Parser.function wider what deeper)
  statement : Extended stop (Parser.statement input nesting) (Parser.statement wider deeper)
  forStatement : Extended stop (Parser.forStatement input nesting)
    (Parser.forStatement wider deeper)
  block : Extended stop (Parser.block input nesting) (Parser.block wider deeper)

namespace ExtendsStatements

theorem declaration_succ (hstop : stop ≠ .fault) (hroom : Roomier stop input wider)
    (h : Within stop .tooDeep nesting deeper)
    (ih : ExtendsStatements stop input wider nesting deeper) :
    Extended stop (Parser.declaration input (nesting + 1))
      (Parser.declaration wider (deeper + 1)) := by
  rw [Parser.declaration, Parser.declaration]
  refine .recovering (.bind (.peek hroom.finish) fun t ↦ ?_) hstop
  split
  · exact .bind .advance fun _ ↦ extended_varDeclaration hroom nesting deeper h
  · exact .bind .advance fun _ ↦ ih.classDeclaration
  · exact .bind .advance fun _ ↦ .map (ih.function _)
  · exact ih.statement

theorem classDeclaration_succ (hroom : Roomier stop input wider)
    (ih : ExtendsStatements stop input wider nesting deeper) :
    Extended stop (Parser.classDeclaration input (nesting + 1))
      (Parser.classDeclaration wider (deeper + 1)) := by
  rw [Parser.classDeclaration, Parser.classDeclaration]
  have hrest : ∀ name superclass, Extended stop (do
      let _ ← expect input .leftBrace "'\x7b' before class body"
      let methods ← many (fun k ↦ decide (k = .rightBrace))
        (Parser.function input "method" nesting) input.size []
      let _ ← expect input .rightBrace "'\x7d' after class body"
      return Stmt.class name superclass methods) (do
      let _ ← expect wider .leftBrace "'\x7b' before class body"
      let methods ← many (fun k ↦ decide (k = .rightBrace))
        (Parser.function wider "method" deeper) wider.size []
      let _ ← expect wider .rightBrace "'\x7d' after class body"
      return Stmt.class name superclass methods) :=
    fun name superclass ↦ .bind (.expect hroom.finish) fun _ ↦
      .bind (.many (ih.function _) _ _ hroom.size []) fun _ ↦
        .bind (.expect hroom.finish) fun _ ↦ .pure _
  refine .bind (.expect hroom.finish) fun name ↦ .bind .accept fun less? ↦ ?_
  cases less? with
  | none => exact hrest name none
  | some _ => exact .bind (.map (.expect hroom.finish)) (hrest name)

theorem statement_succ (hroom : Roomier stop input wider) (h : Within stop .tooDeep nesting deeper)
    (ih : ExtendsStatements stop input wider nesting deeper) :
    Extended stop (Parser.statement input (nesting + 1))
      (Parser.statement wider (deeper + 1)) := by
  have hfinish := hroom.finish
  have hexpression : Extended stop (Parser.expression input nesting)
      (Parser.expression wider deeper) :=
    (ExtendsExpressions.of_within hroom nesting deeper h).expression
  rw [Parser.statement, Parser.statement]
  refine .bind (.peek hfinish) fun t ↦ ?_
  split
  · exact .bind .advance fun _ ↦ ih.forStatement
  · exact .bind .advance fun _ ↦ .bind (.expect hfinish) fun _ ↦ .bind hexpression fun _ ↦
      .bind (.expect hfinish) fun _ ↦ .bind ih.statement fun _ ↦ .pure _
  · refine .bind .advance fun _ ↦ .bind (.expect hfinish) fun _ ↦ .bind hexpression fun _ ↦
      .bind (.expect hfinish) fun _ ↦ .bind ih.statement fun _ ↦ .bind .accept fun else? ↦ ?_
    cases else? with
    | none => exact .pure _
    | some _ => exact .bind ih.statement fun _ ↦ .pure _
  · exact .bind .advance fun _ ↦ .bind hexpression fun _ ↦ .bind (.expect hfinish) fun _ ↦ .pure _
  · exact .bind .advance fun _ ↦ extended_returnStatement hroom t nesting deeper h
  · exact .bind .advance fun _ ↦ .map ih.block
  · exact extended_expressionStatement hroom nesting deeper h

theorem forStatement_succ (hroom : Roomier stop input wider)
    (h : Within stop .tooDeep nesting deeper)
    (ih : ExtendsStatements stop input wider nesting deeper) :
    Extended stop (Parser.forStatement input (nesting + 1))
      (Parser.forStatement wider (deeper + 1)) := by
  have hfinish := hroom.finish
  rw [Parser.forStatement, Parser.forStatement]
  have hrest : ∀ initializer, Extended stop (do
      let condition ← expressionUnless input .semicolon nesting
      let _ ← expect input .semicolon "';' after loop condition"
      let increment ← expressionUnless input .rightParen nesting
      let _ ← expect input .rightParen "')' after for clauses"
      return Stmt.forLoop initializer condition increment (← Parser.statement input nesting)) (do
      let condition ← expressionUnless wider .semicolon deeper
      let _ ← expect wider .semicolon "';' after loop condition"
      let increment ← expressionUnless wider .rightParen deeper
      let _ ← expect wider .rightParen "')' after for clauses"
      return Stmt.forLoop initializer condition increment (← Parser.statement wider deeper)) :=
    fun initializer ↦ .bind (extended_expressionUnless hroom h) fun _ ↦
      .bind (.expect hfinish) fun _ ↦ .bind (extended_expressionUnless hroom h) fun _ ↦
        .bind (.expect hfinish) fun _ ↦ .bind ih.statement fun _ ↦ .pure _
  refine .bind (.expect hfinish) fun _ ↦ .bind (.peek hfinish) fun t ↦ ?_
  split
  · exact .bind .advance fun _ ↦ hrest none
  · exact .bind .advance fun _ ↦
      .bind (.map (extended_varDeclaration hroom nesting deeper h)) hrest
  · exact .bind (.map (extended_expressionStatement hroom nesting deeper h)) hrest

/-- One more nested call on either side. -/
theorem succ (hstop : stop ≠ .fault) (hroom : Roomier stop input wider)
    (h : Within stop .tooDeep nesting deeper)
    (ih : ExtendsStatements stop input wider nesting deeper) :
    ExtendsStatements stop input wider (nesting + 1) (deeper + 1) where
  declaration := ih.declaration_succ hstop hroom h
  classDeclaration := ih.classDeclaration_succ hroom
  function := fun what ↦ by
    rw [Parser.function, Parser.function]
    exact .bind (extended_functionHead hroom what) fun _ ↦
      .map (.insideFunction ih.statement)
  statement := ih.statement_succ hroom h
  forStatement := ih.forStatement_succ hroom h
  block := by
    rw [Parser.block, Parser.block]
    exact .bind (.many ih.declaration _ _ hroom.size []) fun _ ↦
      .bind (.expect hroom.finish) fun _ ↦ .pure _

theorem refl (hstop : stop ≠ .fault) (input : Input) :
    ∀ nesting, ExtendsStatements stop input input nesting nesting
  | 0 =>
    { declaration := .of_unaware (.throw .tooDeep)
      classDeclaration := .of_unaware (.throw .tooDeep)
      function := fun _ ↦ .of_unaware (.throw .tooDeep)
      statement := .of_unaware (.throw .tooDeep)
      forStatement := .of_unaware (.throw .tooDeep)
      block := .of_unaware (.throw .tooDeep) }
  | nesting + 1 => (refl hstop input nesting).succ hstop (.refl stop input) .refl

theorem of_within (hstop : stop ≠ .fault) (hroom : Roomier stop input wider) :
    ∀ nesting deeper, Within stop .tooDeep nesting deeper →
      ExtendsStatements stop input wider nesting deeper
  | 0, deeper, h =>
    have hself : ExtendsStatements stop wider wider deeper deeper := refl hstop wider deeper
    { declaration := .of_stopped (q := Parser.declaration wider) rfl hself.declaration.unaware h
      classDeclaration :=
        .of_stopped (q := Parser.classDeclaration wider) rfl hself.classDeclaration.unaware h
      function := fun what ↦
        .of_stopped (q := Parser.function wider what) rfl (hself.function what).unaware h
      statement := .of_stopped (q := Parser.statement wider) rfl hself.statement.unaware h
      forStatement := .of_stopped (q := Parser.forStatement wider) rfl hself.forStatement.unaware h
      block := .of_stopped (q := Parser.block wider) rfl hself.block.unaware h }
  | _ + 1, 0, h => h.not_succ_zero.elim
  | nesting + 1, deeper + 1, h =>
    (of_within hstop hroom nesting deeper h.of_succ).succ hstop hroom h.of_succ

end ExtendsStatements

/-! ## Whole inputs -/

theorem extended_program (hstop : stop ≠ .fault) (hroom : Roomier stop input wider)
    (h : Within stop .tooDeep nesting deeper) :
    Extended stop (program input nesting) (program wider deeper) := by
  have hstatements : ExtendsStatements stop input wider nesting deeper :=
    .of_within hstop hroom nesting deeper h
  exact .bind (.many hstatements.declaration _ _ hroom.size []) fun _ ↦ .pure _

theorem extended_wholeExpression (hroom : Roomier stop input wider)
    (h : Within stop .tooDeep nesting deeper) :
    Extended stop (wholeExpression input nesting) (wholeExpression wider deeper) := by
  refine .bind (ExtendsExpressions.of_within hroom nesting deeper h).expression fun e ↦
    .bind .check fun more ↦ ?_
  cases more with
  | true => exact .bind (.fail hroom.finish) fun _ ↦ .pure e
  | false => exact .pure e

/-- A parser that may make fewer nested calls has the same outcome, or none. Where it has none, it
has complained about what the other one complains about first. -/
theorem run_of_extended {p q : Input → Parse α}
    (h : ∀ input, Extended .tooDeep (p input) (q input)) (tokens : List Token) (finish : Token) :
    ((run p tokens finish).result = .error .tooDeep ∧
        (run p tokens finish).errors <+: (run q tokens finish).errors) ∨
      run p tokens finish = run q tokens finish := by
  rw [run, run]
  rcases (h ⟨finish, tokens.length + 1⟩).cutShort.agrees ⟨tokens, 0, []⟩ with
    hsame | ⟨s', hdeep, hkept⟩
  · exact .inr (by rw [hsame])
  · refine .inl ?_
    rw [hdeep]
    refine ⟨rfl, ?_⟩
    cases hq : q ⟨finish, tokens.length + 1⟩ ⟨tokens, 0, []⟩ with
    | ok a s => exact List.reverse_prefix.mpr (hkept.of_ok hq)
    | error abort s => exact List.reverse_prefix.mpr (hkept.of_error hq)

end Lox.Parser
