import Lox.Proofs.Syntax.Consumption
import Lox.Syntax.Parser

/-!
# What follows an expression

No expression goes on with a semicolon, nor with a token that begins a statement. So where the
parser of an expression has stopped at one of these, it makes no difference to it which one it is,
or what comes behind: the one row of tokens that follows can be exchanged for another one.

The parser must have stopped in front of that row, so a parser in the middle of a run may not have
taken any of it. That is why the statement also says that no token is put back.
-/

namespace Lox

/-- The kinds of token with which no expression goes on: a semicolon and what begins a statement. -/
def Kind.endsExpression (kind : Kind) : Bool := kind = .semicolon || kind.startsStatement

namespace Parser

variable {α β : Type} {input wider : Input} {nesting : Nat} {one other : List Token}
  {least : Nat}

/-- A row of tokens with which no expression goes on. -/
def Closing (row : List Token) : Prop := ∃ t rest, row = t :: rest ∧ t.kind.endsExpression = true

/-- If the first parser returns, it has taken at least so many tokens, and if it has stopped at a
row of tokens, the second one does the same and stops at the other row in its place. -/
def ExchangesAt (one other : List Token) (least : Nat) (p q : Parse α) (s : State) : Prop :=
  ∀ a s', p s = .ok a s' → s'.rest <:+ s.rest ∧ s'.rest.length + least ≤ s.rest.length ∧
    ∀ us vs, s.rest = us ++ one → s'.rest = vs ++ one →
      q { s with rest := us ++ other } = .ok a { s' with rest := vs ++ other }

def Exchanges (one other : List Token) (least : Nat) (p q : Parse α) : Prop :=
  ∀ s, ExchangesAt one other least p q s

/-- Taking a token that has been looked at. -/
theorem ExchangesAt.taking {p q : Parse α} {t : Token} {rest : List Token} {s : State}
    (hs : s.rest = t :: rest)
    (ht : t.kind.endsExpression = false) (hone : Closing one)
    (hp : Exchanges one other 0 p q) :
    ExchangesAt one other 1 (Parser.advance >>= fun _ ↦ p) (Parser.advance >>= fun _ ↦ q) s := by
  intro a s' h
  obtain ⟨_, functions, errors⟩ := s
  obtain rfl : _ = t :: rest := hs
  obtain ⟨hsuffix, hlength, hexchange⟩ := hp ⟨rest, functions, errors⟩ a s' h
  refine ⟨hsuffix.trans (List.suffix_cons t rest), Nat.succ_le_succ hlength, fun us vs hus hvs ↦ ?_⟩
  cases us with
  | nil =>
    obtain ⟨u, row, hrow, hu⟩ := hone
    obtain ⟨rfl, -⟩ := List.cons.inj (hus.trans hrow)
    exact absurd (ht.symm.trans hu) Bool.false_ne_true
  | cons u us => exact hexchange us vs (List.cons.inj hus).2 hvs

namespace Exchanges

variable {p q : Parse α} {f g : α → Parse β}

theorem mono {fewer : Nat} (h : Exchanges one other least p q) (hle : fewer ≤ least) :
    Exchanges one other fewer p q := by
  intro s a s' hp
  obtain ⟨hsuffix, hlength, hexchange⟩ := h s a s' hp
  exact ⟨hsuffix, by omega, hexchange⟩

theorem pure (a : α) : Exchanges one other 0 (Pure.pure a) (Pure.pure a) := by
  rintro s a s' ⟨⟩
  refine ⟨List.suffix_rfl, Nat.le_refl _, fun us vs hus hvs ↦ ?_⟩
  rw [List.append_cancel_right (hus.symm.trans hvs)]
  rfl

theorem bind {more : Nat} (hp : Exchanges one other least p q)
    (hf : ∀ a, Exchanges one other more (f a) (g a)) :
    Exchanges one other (least + more) (p >>= f) (q >>= g) := by
  intro s b s₂ h
  obtain ⟨a, s₁, hps, hfa⟩ := bind_eq_ok h
  obtain ⟨hsuffix, hlength, hexchange⟩ := hp s a s₁ hps
  obtain ⟨hsuffix', hlength', hexchange'⟩ := hf a s₁ b s₂ hfa
  refine ⟨hsuffix'.trans hsuffix, by omega, fun us vs hus hvs ↦ ?_⟩
  -- As no token is put back, the row was still to come in between.
  obtain ⟨ws, hws⟩ := (List.suffix_append vs one).trans (hvs ▸ hsuffix')
  exact (bind_of_ok (hexchange us ws hus hws.symm)).trans (hexchange' ws vs hws.symm hvs)

/-- What comes first takes enough. -/
theorem before (hp : Exchanges one other least p q)
    (hf : ∀ a, Exchanges one other 0 (f a) (g a)) :
    Exchanges one other least (p >>= f) (q >>= g) := bind hp hf

/-- What comes first may take nothing. -/
theorem after (hp : Exchanges one other 0 p q)
    (hf : ∀ a, Exchanges one other least (f a) (g a)) :
    Exchanges one other least (p >>= f) (q >>= g) := (bind hp hf).mono (by omega)

theorem map {f : α → β} (hp : Exchanges one other least p q) :
    Exchanges one other least (f <$> p) (f <$> q) := by
  rw [← bind_pure_comp, ← bind_pure_comp]
  exact before hp fun a ↦ pure (f a)

theorem throw {abort : Abort} : Exchanges one other least (MonadExcept.throw abort : Parse α) q :=
  fun _ _ _ h ↦ by cases h

theorem fail {error : SyntaxError} :
    Exchanges one other least (Parser.fail input error : Parse α) q :=
  fun _ _ _ h ↦ by cases h

/-! ## Single tokens -/

/-- A parser that looks at the next token, which is not where an expression ends. -/
theorem looking {f g : Token → Parse β} (hone : Closing one)
    (hnone : ∀ s b s', f input.finish s ≠ .ok b s')
    (hends : ∀ t : Token, t.kind.endsExpression = true → ∀ s b s', f t s ≠ .ok b s')
    (hsome : ∀ t rest s, s.rest = t :: rest → t.kind.endsExpression = false →
      ExchangesAt one other least (f t) (g t) s) :
    Exchanges one other least (Parser.peek input >>= f) (Parser.peek wider >>= g) := by
  rintro ⟨rest, functions, errors⟩ b s' h
  cases rest with
  | nil => exact absurd h (hnone _ b s')
  | cons t rest =>
    have hft : f t ⟨t :: rest, functions, errors⟩ = .ok b s' := h
    cases ht : t.kind.endsExpression with
    | true => exact absurd hft (hends t ht _ b s')
    | false =>
      obtain ⟨hsuffix, hlength, hexchange⟩ := hsome t rest _ rfl ht b s' hft
      refine ⟨hsuffix, hlength, fun us vs hus hvs ↦ ?_⟩
      have hboth := hexchange us vs hus hvs
      cases us with
      | nil =>
        obtain ⟨u, row, hrow, hu⟩ := hone
        obtain ⟨rfl, -⟩ := List.cons.inj (hus.trans hrow)
        exact absurd (ht.symm.trans hu) Bool.false_ne_true
      | cons u us =>
        obtain ⟨rfl, -⟩ := List.cons.inj hus
        exact hboth

section Kinds

variable {kinds : Kind → Bool} (hone : Closing one) (hother : Closing other)
  (hkinds : ∀ kind : Kind, kind.endsExpression = true → kinds kind = false)

include hone hkinds in
theorem head?_of_closing : ∀ t ∈ one.head?, kinds t.kind = false := by
  obtain ⟨u, row, rfl, hu⟩ := hone
  rintro t ⟨⟩
  exact hkinds _ hu

include hone hother hkinds in
theorem acceptIf : Exchanges one other 0 (Parser.acceptIf kinds) (Parser.acceptIf kinds) := by
  rintro ⟨rest, functions, errors⟩ t? s' h
  have hnone : ∀ ts : List Token, (∀ t ∈ ts.head?, kinds t.kind = false) →
      Parser.acceptIf kinds ⟨ts, functions, errors⟩ = .ok none ⟨ts, functions, errors⟩ :=
    fun ts hts ↦ acceptIf_eq_none hts
  by_cases hrest : ∀ t ∈ rest.head?, kinds t.kind = false
  · rw [hnone rest hrest] at h
    cases h
    refine ⟨List.suffix_rfl, Nat.le_refl _, fun us vs hus hvs ↦ ?_⟩
    rw [← List.append_cancel_right (hus.symm.trans hvs)]
    refine hnone _ fun t ht ↦ ?_
    cases us with
    | nil => exact head?_of_closing hother hkinds t ht
    | cons u us =>
      obtain rfl : rest = u :: us ++ one := hus
      exact hrest t ht
  · obtain ⟨t, rest, rfl, ht⟩ : ∃ t ts, rest = t :: ts ∧ kinds t.kind = true := by
      cases rest with
      | nil => exact absurd (fun _ h ↦ by cases h) hrest
      | cons t rest =>
        refine ⟨t, rest, rfl, ?_⟩
        by_contra ht
        exact hrest fun u hu ↦ by cases hu; exact Bool.not_eq_true _ ▸ ht
    rw [acceptIf_eq_some ht] at h
    cases h
    refine ⟨List.suffix_cons t rest, Nat.le_succ _, fun us vs hus hvs ↦ ?_⟩
    cases us with
    | nil =>
      obtain rfl : t :: rest = one := hus
      exact absurd (head?_of_closing hone hkinds t rfl ▸ ht) Bool.false_ne_true
    | cons u us =>
      obtain ⟨rfl, htail⟩ := List.cons.inj hus
      have hvs' : rest = vs ++ one := hvs
      rw [← List.append_cancel_right (htail.symm.trans hvs')]
      exact acceptIf_eq_some ht

include hone hother in
theorem accept {kind : Kind} (hkind : kind.endsExpression = false) :
    Exchanges one other 0 (Parser.accept kind) (Parser.accept kind) :=
  acceptIf hone hother fun _ hends ↦ decide_eq_false fun heq ↦
    Bool.false_ne_true (hkind.symm.trans (heq ▸ hends))

include hone hother in
theorem expect {kind : Kind} {what : String} (hkind : kind.endsExpression = false) :
    Exchanges one other 0 (Parser.expect input kind what) (Parser.expect wider kind what) := by
  refine after (accept hone hother hkind) fun t? ↦ ?_
  cases t? with
  | none => exact fail
  | some t => exact pure t

theorem check_closing {kind : Kind} (hkind : kind.endsExpression = false) {row : List Token}
    (hrow : Closing row) (functions : Nat) (errors : List (Token × SyntaxError)) :
    Parser.check (fun k ↦ decide (k = kind)) ⟨row, functions, errors⟩
      = .ok false ⟨row, functions, errors⟩ := by
  obtain ⟨t, rest, rfl, ht⟩ := hrow
  have hne : decide (t.kind = kind) = false :=
    decide_eq_false fun heq ↦ Bool.false_ne_true (hkind.symm.trans (heq ▸ ht))
  exact congrArg (fun b ↦ EStateM.Result.ok b _) hne

include hone hother in
theorem check {kind : Kind} (hkind : kind.endsExpression = false) :
    Exchanges one other 0 (Parser.check fun k ↦ decide (k = kind))
      (Parser.check fun k ↦ decide (k = kind)) := by
  rintro ⟨rest, functions, errors⟩ b s' h
  have hs' : s' = ⟨rest, functions, errors⟩ := by cases h; rfl
  subst hs'
  refine ⟨List.suffix_rfl, Nat.le_refl _, fun us vs hus hvs ↦ ?_⟩
  rw [← List.append_cancel_right (hus.symm.trans hvs)]
  cases us with
  | nil =>
    obtain rfl : rest = one := hus
    rw [check_closing hkind hone] at h
    cases h
    exact check_closing hkind hother functions errors
  | cons u us =>
    obtain rfl : rest = u :: us ++ one := hus
    cases h
    rfl

end Kinds

theorem report {t : Token} {error : SyntaxError} :
    Exchanges one other 0 (Parser.report t error) (Parser.report t error) := by
  rintro s a s' ⟨⟩
  refine ⟨List.suffix_rfl, Nat.le_refl _, fun us vs hus hvs ↦ ?_⟩
  rw [List.append_cancel_right (hus.symm.trans hvs)]
  rfl

/-- What has to take a token does not begin at the row, so a complaint about the token where it
begins is not about the row. -/
theorem reportIf {c : Prop} [Decidable c] {error : SyntaxError}
    (h : Exchanges one other 1 p q) : Exchanges one other 1 (do
      if c then Parser.report (← Parser.peek input) error
      p) (do
      if c then Parser.report (← Parser.peek wider) error
      q) := by
  by_cases hc : c
  · rw [if_pos hc, if_pos hc]
    rintro ⟨rest, functions, errors⟩ a s' hp
    cases rest with
    | nil => exact absurd (h _ a s' hp).2.1 (Nat.not_succ_le_zero _)
    | cons t rest =>
      obtain ⟨hsuffix, hlength, hexchange⟩ := h ⟨t :: rest, functions, (t, error) :: errors⟩ a s' hp
      refine ⟨hsuffix, hlength, fun us vs hus hvs ↦ ?_⟩
      cases us with
      | nil =>
        have hrest : t :: rest = one := hus
        have hless : s'.rest.length + 1 ≤ (t :: rest).length := hlength
        rw [hvs, hrest, List.length_append] at hless
        omega
      | cons u us =>
        obtain ⟨rfl, -⟩ := List.cons.inj hus
        exact hexchange (t :: us) vs hus hvs
  · rw [if_neg hc, if_neg hc]
    exact h

/-! ## Loops -/

section Loops

variable (hone : Closing one) (hother : Closing other)

include hone hother in
theorem chain {p q : Parse Expr} {isOperator : Kind → Bool} {join : Expr → Token → Expr → Expr}
    (hoperator : ∀ kind : Kind, kind.endsExpression = true → isOperator kind = false)
    (h : Exchanges one other 0 p q) : ∀ bound bound' left, bound ≤ bound' →
      Exchanges one other 0 (Parser.chain p isOperator join bound left)
        (Parser.chain q isOperator join bound' left)
  | 0, _, _, _ => throw
  | bound + 1, bound' + 1, left, hle => by
    rw [Parser.chain, Parser.chain]
    refine after (acceptIf hone hother hoperator) fun operator? ↦ ?_
    cases operator? with
    | none => exact pure left
    | some operator =>
      exact after h fun right ↦ chain hoperator h bound bound' _ (Nat.le_of_succ_le_succ hle)

include hone hother in
theorem suffixes {arguments arguments' : Expr → Parse Expr}
    (h : ∀ e, Exchanges one other 0 (arguments e) (arguments' e)) :
    ∀ bound bound' operand, bound ≤ bound' →
      Exchanges one other 0 (Parser.suffixes input arguments bound operand)
        (Parser.suffixes wider arguments' bound' operand)
  | 0, _, _, _ => throw
  | bound + 1, bound' + 1, operand, hle => by
    have ih := fun operand ↦ suffixes h bound bound' operand (Nat.le_of_succ_le_succ hle)
    rw [Parser.suffixes, Parser.suffixes]
    refine after (accept hone hother rfl) fun paren? ↦ ?_
    cases paren? with
    | some _ => exact after (h operand) ih
    | none =>
      refine after (accept hone hother rfl) fun dot? ↦ ?_
      cases dot? with
      | none => exact pure operand
      | some _ => exact after (expect hone hother rfl) fun name ↦ ih _

include hone hother in
theorem commaSeparated {what : String} (h : Exchanges one other 1 p q) :
    ∀ bound bound' room read, bound ≤ bound' →
      Exchanges one other 1 (Parser.commaSeparated input what p bound room read)
        (Parser.commaSeparated wider what q bound' room read)
  | 0, _, _, _, _ => throw
  | bound + 1, bound' + 1, room, read, hle => by
    rw [Parser.commaSeparated, Parser.commaSeparated]
    refine reportIf (before h fun a ↦ after (accept hone hother rfl) fun comma? ↦ ?_)
    cases comma? with
    | none => exact pure _
    | some _ =>
      exact (commaSeparated h bound bound' _ _ (Nat.le_of_succ_le_succ hle)).mono (Nat.zero_le _)

include hone hother in
theorem listed {what : String} (hsize : input.size ≤ wider.size) (h : Exchanges one other 1 p q) :
    Exchanges one other 0 (Parser.listed input what p) (Parser.listed wider what q) := by
  rw [Parser.listed, Parser.listed]
  refine after (check hone hother rfl) fun closes ↦ ?_
  cases closes with
  | true => exact pure []
  | false => exact (commaSeparated hone hother h _ _ _ _ hsize).mono (Nat.zero_le _)

end Loops

end Exchanges

/-! ## Expressions -/

theorem Level.hasOperator_of_endsExpression {level : Level} :
    ∀ kind : Kind, kind.endsExpression = true → level.hasOperator kind = false := by
  intro kind hkind
  cases kind <;> cases hkind <;> cases level <;> rfl

structure ExchangesExpressions (one other : List Token) (input wider : Input) (nesting : Nat) :
    Prop where
  expression : Exchanges one other 1 (Parser.expression input nesting)
    (Parser.expression wider nesting)
  assignment : Exchanges one other 1 (Parser.assignment input nesting)
    (Parser.assignment wider nesting)
  binary : ∀ level, Exchanges one other 1 (Parser.binary input nesting level)
    (Parser.binary wider nesting level)
  unary : Exchanges one other 1 (Parser.unary input nesting) (Parser.unary wider nesting)
  call : Exchanges one other 1 (Parser.call input nesting) (Parser.call wider nesting)
  callArguments : ∀ callee, Exchanges one other 0 (Parser.callArguments input nesting callee)
    (Parser.callArguments wider nesting callee)
  primary : Exchanges one other 1 (Parser.primary input nesting) (Parser.primary wider nesting)

namespace ExchangesExpressions

theorem primary_succ (hone : Closing one) (hother : Closing other)
    (hfinish : input.finish.kind = .eof) (ih : ExchangesExpressions one other input wider nesting) :
    Exchanges one other 1 (Parser.primary input (nesting + 1))
      (Parser.primary wider (nesting + 1)) := by
  rw [Parser.primary, Parser.primary]
  refine .looking hone ?_ ?_ fun t rest s hs ht ↦ ?_
  · rw [hfinish]
    exact fun _ _ _ h ↦ by cases h
  · intro t hends s b s'
    cases hkind : t.kind <;> rw [hkind] at hends <;> cases hends <;> exact fun h ↦ by cases h
  · split
    case h_7 =>
      exact .taking hs ht hone (.after (.expect hone hother rfl) fun _ ↦
        .after (.expect hone hother rfl) fun _ ↦ .pure _)
    case h_9 =>
      exact .taking hs ht hone (.after (ih.expression.mono (Nat.zero_le _)) fun _ ↦
        .after (.expect hone hother rfl) fun _ ↦ .pure _)
    case h_10 => exact Exchanges.fail s
    all_goals exact .taking hs ht hone (.pure _)

theorem of_nesting (hone : Closing one) (hother : Closing other)
    (hfinish : input.finish.kind = .eof) (hsize : input.size ≤ wider.size) :
    ∀ nesting, ExchangesExpressions one other input wider nesting
  | 0 => ⟨.throw, .throw, fun _ ↦ .throw, .throw, .throw, fun _ ↦ .throw, .throw⟩
  | nesting + 1 =>
    have ih := of_nesting hone hother hfinish hsize nesting
    { expression := by
        rw [Parser.expression, Parser.expression]
        exact ih.assignment
      assignment := by
        rw [Parser.assignment, Parser.assignment]
        refine .before (ih.binary .or) fun target ↦
          .after (.accept hone hother rfl) fun equals? ↦ ?_
        cases equals? with
        | none => exact .pure target
        | some equals =>
          refine .after (ih.assignment.mono (Nat.zero_le _)) fun value ↦ ?_
          cases target
          case var | property => exact .pure _
          all_goals exact .after .report fun _ ↦ .pure _
      binary := fun level ↦ by
        rw [Parser.binary, Parser.binary]
        have hchain : ∀ operand operand', Exchanges one other 1 operand operand' → ∀ left,
            Exchanges one other 0 (chain operand level.hasOperator level.join input.size left)
              (chain operand' level.hasOperator level.join wider.size left) :=
          fun _ _ hoperand left ↦ .chain hone hother Level.hasOperator_of_endsExpression
            (hoperand.mono (Nat.zero_le _)) _ _ left hsize
        cases level.tighter? with
        | none => exact .before ih.unary (hchain _ _ ih.unary)
        | some tighter => exact .before (ih.binary tighter) (hchain _ _ (ih.binary tighter))
      unary := by
        rw [Parser.unary, Parser.unary]
        refine .after (.acceptIf hone hother ?_) fun operator? ↦ ?_
        · intro kind hkind
          cases kind <;> cases hkind <;> rfl
        · cases operator? with
          | none => exact ih.call
          | some operator => exact .map ih.unary
      call := by
        rw [Parser.call, Parser.call]
        exact .before ih.primary fun operand ↦
          .suffixes hone hother ih.callArguments _ _ operand hsize
      callArguments := fun callee ↦ by
        rw [Parser.callArguments, Parser.callArguments]
        exact .after (.listed hone hother hsize ih.expression) fun _ ↦
          .after (.expect hone hother rfl) fun _ ↦ .pure _
      primary := ih.primary_succ hone hother hfinish }

end ExchangesExpressions

end Parser

end Lox
