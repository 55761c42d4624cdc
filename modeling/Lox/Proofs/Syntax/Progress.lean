import Lox.Proofs.Syntax.Consumption

/-!
# Parsing gets on

A parser never puts a token back, and every round of a loop takes at least one. So a loop that may
make more rounds than there are tokens is never stopped by its bound: what the bounds are for is
that the definitions terminate, and they decide nothing.

A declaration is the interesting case. The one that is given up may have taken nothing, but then
the recovery drops a token. What it is given up for is the latest complaint, and that one is about
the token where the parser stopped.
-/

namespace Lox.Parser

variable {α β : Type} {s : State} {input : Input} {finish : Token} {size least : Nat}

/-- A parser has stopped early, and not because of the bound of a loop. If it was for a complaint,
that is the latest one, and it is about the next token, or about the one that marks the end. -/
def Stopped (finish : Token) (abort : Abort) (s : State) : Prop :=
  abort ≠ .exhausted ∧
    (abort = .fault → ∃ error before, s.errors = (s.rest.headD finish, error) :: before)

/-- A parser that, from a state on, takes at least so many tokens if it returns. If it does not, it
has still put none back. -/
def Advances (finish : Token) (least : Nat) (p : Parse α) (s : State) : Prop :=
  Ends p s
    (fun _ s' ↦ s'.rest <:+ s.rest ∧ s'.rest.length + least ≤ s.rest.length)
    (fun abort s' ↦ s'.rest <:+ s.rest ∧ Stopped finish abort s')

/-- A parser that advances from every state with fewer tokens than a bound. -/
def Progress (finish : Token) (size least : Nat) (p : Parse α) : Prop :=
  ∀ s, s.rest.length < size → Advances finish least p s

namespace Progress

variable {p : Parse α} {q : α → Parse β}

theorem mono {fewer : Nat} (h : Progress finish size least p) (hle : fewer ≤ least) :
    Progress finish size fewer p := fun s hs ↦
  Ends.mono (h s hs) (fun _ _ ⟨hsuffix, hlength⟩ ↦ ⟨hsuffix, by omega⟩) fun _ _ h ↦ h

theorem pure (a : α) : Progress finish size 0 (Pure.pure a : Parse α) := fun _ _ ↦
  Ends.pure ⟨List.suffix_rfl, Nat.le_refl _⟩

theorem bind {more : Nat} (hp : Progress finish size least p)
    (hq : ∀ a, Progress finish size more (q a)) :
    Progress finish size (least + more) (p >>= q) := by
  intro s hs
  refine Ends.bind (Ends.mono (hp s hs) (fun a s₁ ⟨hsuffix, hlength⟩ ↦ ?_) fun _ _ h ↦ h)
  exact Ends.mono (hq a s₁ (by omega))
    (fun _ s₂ ⟨hsuffix', hlength'⟩ ↦ ⟨hsuffix'.trans hsuffix, by omega⟩)
    fun _ s₂ ⟨hsuffix', hstopped⟩ ↦ ⟨hsuffix'.trans hsuffix, hstopped⟩

/-- What comes first may take nothing. -/
theorem after (hp : Progress finish size 0 p) (hq : ∀ a, Progress finish size least (q a)) :
    Progress finish size least (p >>= q) := (bind hp hq).mono (by omega)

/-- What comes first takes enough. -/
theorem before (hp : Progress finish size least p) (hq : ∀ a, Progress finish size 0 (q a)) :
    Progress finish size least (p >>= q) := bind hp hq

theorem map {g : α → β} (hp : Progress finish size least p) :
    Progress finish size least (g <$> p) := by
  rw [← bind_pure_comp]
  exact before hp fun a ↦ pure (g a)

/-! ## Single tokens -/

theorem tooDeep : Progress finish size least (Parser.tooDeep : Parse α) := fun _ _ ↦
  Ends.throw ⟨List.suffix_rfl, Abort.noConfusion, fun h ↦ Abort.noConfusion h⟩

theorem fail {error : SyntaxError} :
    Progress input.finish size least (Parser.fail input error : Parse α) :=
  fun _ _ ↦ ⟨List.suffix_rfl, Abort.noConfusion, fun _ ↦ ⟨_, _, rfl⟩⟩

theorem report {t : Token} {error : SyntaxError} : Progress finish size 0 (Parser.report t error) :=
  fun _ _ ↦ ⟨List.suffix_rfl, Nat.le_refl _⟩

theorem check {k : Kind → Bool} : Progress finish size 0 (Parser.check k) :=
  fun _ _ ↦ ⟨List.suffix_rfl, Nat.le_refl _⟩

theorem peek : Progress finish size 0 (Parser.peek input) :=
  fun _ _ ↦ ⟨List.suffix_rfl, Nat.le_refl _⟩

theorem get : Progress finish size 0 (MonadState.get : Parse State) :=
  fun _ _ ↦ ⟨List.suffix_rfl, Nat.le_refl _⟩

theorem advance : Progress finish size 0 Parser.advance := fun s _ ↦
  ⟨List.tail_suffix s.rest, (List.tail_suffix s.rest).length_le⟩

/-- A token that is accepted has been taken. -/
theorem acceptIf {k : Kind → Bool} {q : Option Token → Parse α}
    (hnone : Progress finish size least (q none))
    (hsome : ∀ t, Progress finish (size - 1) (least - 1) (q (some t))) :
    Progress finish size least (Parser.acceptIf k >>= q) := by
  intro s hs
  obtain ⟨rest, functions, errors⟩ := s
  cases rest with
  | nil => exact hnone _ hs
  | cons t rest =>
    by_cases ht : k t.kind = true
    · rw [Advances, Ends, bind_of_ok (acceptIf_eq_some ht)]
      refine Ends.mono (hsome t ⟨rest, functions, errors⟩ (Nat.lt_sub_of_add_lt hs)) ?_ ?_
      · intro _ s' hadvanced
        have hlength : s'.rest.length + (least - 1) ≤ rest.length := hadvanced.2
        refine ⟨hadvanced.1.trans (List.suffix_cons t rest), ?_⟩
        simp only [List.length_cons]
        omega
      · intro _ s' hadvanced
        exact ⟨hadvanced.1.trans (List.suffix_cons t rest), hadvanced.2⟩
    · rw [Advances, Ends, bind_of_ok (acceptIf_eq_none fun u hu ↦ by
        rw [← Option.mem_some_iff.mp hu]; exact Bool.eq_false_iff.mpr ht)]
      exact hnone _ hs

theorem accept {kind : Kind} {q : Option Token → Parse α}
    (hnone : Progress finish size least (q none))
    (hsome : ∀ t, Progress finish (size - 1) (least - 1) (q (some t))) :
    Progress finish size least (Parser.accept kind >>= q) := acceptIf hnone hsome

theorem expect {kind : Kind} {what : String} :
    Progress input.finish size 1 (Parser.expect input kind what) :=
  accept fail pure

/-- What is done with the next token, where there is one, and where there is none. -/
theorem looking {q : Token → Parse α}
    (hnone : Progress input.finish size least (q input.finish))
    (hsome : ∀ t s, s.rest.length < size → s.rest.head? = some t →
      Advances input.finish least (q t) s) :
    Progress input.finish size least (Parser.peek input >>= q) := by
  intro s hs
  have hpeek : Parser.peek input s = .ok (s.rest.headD input.finish) s := rfl
  rw [Advances, Ends, bind_of_ok hpeek]
  obtain ⟨rest, functions, errors⟩ := s
  cases rest with
  | nil => exact hnone _ hs
  | cons t rest => exact hsome t _ hs rfl

theorem insideFunction (hp : Progress finish size least p) :
    Progress finish size least (Parser.insideFunction p) := by
  intro s hs
  rw [Advances, Ends, Parser.insideFunction]
  have h := hp { s with functions := s.functions + 1 } hs
  cases hr : p { s with functions := s.functions + 1 } with
  | ok a s' =>
    have hok := Ends.of_ok h hr
    exact hok
  | error abort s' =>
    have herror := Ends.of_error h hr
    exact herror

/-! ## Loops

The bound of a loop is more than the number of tokens that are left. Every round leaves a token
less, and the bound falls by one. -/

theorem of_le {fewer : Nat} (hp : Progress finish size least p) (hle : fewer ≤ size) :
    Progress finish fewer least p := fun s hs ↦ hp s (Nat.lt_of_lt_of_le hs hle)

theorem chain {operand : Parse Expr} {isOperator : Kind → Bool} {join : Expr → Token → Expr → Expr}
    (hoperand : Progress finish size 0 operand) : ∀ bound, bound ≤ size → ∀ left,
      Progress finish bound 0 (Parser.chain operand isOperator join bound left)
  | 0, _, _ => fun _ hs ↦ absurd hs (Nat.not_lt_zero _)
  | bound + 1, hbound, left => by
    rw [Parser.chain]
    have hle := Nat.le_of_succ_le hbound
    exact acceptIf (pure left) fun operator ↦
      after (hoperand.of_le hle) fun right ↦ chain hoperand bound hle _

theorem suffixes {arguments : Expr → Parse Expr}
    (harguments : ∀ e, Progress input.finish size 0 (arguments e)) :
    ∀ bound, bound ≤ size → ∀ operand,
      Progress input.finish bound 0 (Parser.suffixes input arguments bound operand)
  | 0, _, _ => fun _ hs ↦ absurd hs (Nat.not_lt_zero _)
  | bound + 1, hbound, operand => by
    rw [Parser.suffixes]
    have hle := Nat.le_of_succ_le hbound
    refine accept (accept (pure operand) fun dot ↦ ?_) fun paren ↦
      after ((harguments operand).of_le hle) fun e ↦ suffixes harguments bound hle e
    exact after (expect.mono (Nat.zero_le _)) fun name ↦ suffixes harguments bound hle _

theorem reportIf {c : Prop} [Decidable c] {error : SyntaxError}
    (hp : Progress finish size least p) :
    Progress finish size least (do
      if c then Parser.report (← Parser.peek input) error
      p) := by
  by_cases h : c
  · rw [if_pos h]
    exact after peek fun _ ↦ after report fun _ ↦ hp
  · rw [if_neg h]
    exact hp

theorem commaSeparated {what : String} (hp : Progress finish size least p) : ∀ bound, bound ≤ size →
    ∀ room read, Progress finish bound least (Parser.commaSeparated input what p bound room read)
  | 0, _, _, _ => fun _ hs ↦ absurd hs (Nat.not_lt_zero _)
  | bound + 1, hbound, room, read => by
    rw [Parser.commaSeparated]
    refine reportIf (before (hp.of_le hbound) fun a ↦ accept (pure _) fun comma ↦ ?_)
    exact (commaSeparated hp bound (Nat.le_of_succ_le hbound) _ _).mono (Nat.zero_le _)

theorem many {stops : Kind → Bool}
    (hp : ∀ s : State, s.rest.length < size → s.rest ≠ [] → Advances finish 1 p s) :
    ∀ bound, bound ≤ size → ∀ read,
      Progress finish bound 0 (Parser.many stops p bound read)
  | 0, _, _ => fun _ hs ↦ absurd hs (Nat.not_lt_zero _)
  | bound + 1, hbound, read => by
    intro s hs
    rw [Parser.many]
    have hcheck : Parser.check (fun k ↦ !stops k) s
      = .ok (s.rest.head?.any fun t ↦ !stops t.kind) s := rfl
    rw [Advances, Ends, bind_of_ok hcheck]
    cases hmore : s.rest.head?.any fun t ↦ !stops t.kind with
    | false => exact (pure read.reverse : Progress finish _ 0 _) s hs
    | true =>
      have hrest : s.rest ≠ [] := by
        rintro hnil
        rw [hnil] at hmore
        cases hmore
      refine Ends.bind (Ends.mono (hp s (by omega) hrest) ?_ fun _ _ h ↦ h)
      intro a s₁ hfirst
      have hlength : s₁.rest.length + 1 ≤ s.rest.length := hfirst.2
      refine Ends.mono (many hp bound (Nat.le_of_succ_le hbound) (a :: read) s₁ (by omega)) ?_ ?_
      · intro _ s₂ hmany
        exact ⟨hmany.1.trans hfirst.1, by have := hmany.2; omega⟩
      · intro _ s₂ hmany
        exact ⟨hmany.1.trans hfirst.1, hmany.2⟩

theorem listed {what : String} (hp : Progress input.finish input.size 0 p) :
    Progress input.finish input.size 0 (Parser.listed input what p) := by
  refine after check fun closes ↦ ?_
  cases closes with
  | true => exact pure _
  | false => exact commaSeparated hp _ (Nat.le_refl _) _ _

end Progress

/-! ## Declarations that are given up -/

/-- A declaration or a statement, before it may be given up. -/
def attempt (input : Input) (nesting : Nat) : Parse Stmt := do
  match (← peek input).kind with
  | .var => advance; varDeclaration input nesting
  | .class => advance; classDeclaration input nesting
  | .fun => advance; .function <$> function input "function" nesting
  | _ => statement input nesting

theorem declaration_eq_recovering (input : Input) (nesting : Nat) :
    declaration input (nesting + 1) = recovering (attempt input nesting) := by
  rw [declaration]
  rfl

theorem skipFrom_suffix (previous : Token) (ts : List Token) : skipFrom previous ts <:+ ts := by
  induction ts generalizing previous with
  | nil => exact List.suffix_rfl
  | cons t rest ih =>
    rw [skipFrom]
    split
    · exact List.suffix_rfl
    · exact (ih t).trans (List.suffix_cons t rest)

theorem resume_suffix_tail (ts : List Token) : resume ts <:+ ts.tail := by
  cases ts with
  | nil => exact List.suffix_rfl
  | cons t rest => exact skipFrom_suffix t rest

/-- Recovery goes on, if it goes anywhere. -/
theorem Progress.recovering {p : Parse α} (hp : Progress finish size 0 p) :
    Progress finish size 0 (Parser.recovering p) := by
  intro s hs
  rw [Advances, Ends, Parser.recovering]
  cases h : p s with
  | ok a s' =>
    have hok := Ends.of_ok (hp s hs) h
    exact hok
  | error abort s' =>
    obtain ⟨hsuffix, hstopped⟩ := Ends.of_error (hp s hs) h
    cases abort with
    | fault =>
      have hresume := ((resume_suffix_tail s'.rest).trans (List.tail_suffix _)).trans hsuffix
      exact ⟨hresume, hresume.length_le⟩
    | tooDeep => exact ⟨hsuffix, hstopped⟩
    | exhausted => exact absurd rfl hstopped.1

/-- A declaration that is given up loses a token, even if it had taken none. -/
theorem Advances.recovering {p : Parse α} (hp : Progress finish size 1 p)
    (hs : s.rest.length < size) (hrest : s.rest ≠ []) :
    Advances finish 1 (Parser.recovering p) s := by
  rw [Advances, Ends, Parser.recovering]
  cases h : p s with
  | ok a s' =>
    have hok := Ends.of_ok (hp s hs) h
    exact hok
  | error abort s' =>
    obtain ⟨hsuffix, hstopped⟩ := Ends.of_error (hp s hs) h
    cases abort with
    | fault =>
      have hresume := resume_suffix_tail s'.rest
      refine ⟨(hresume.trans (List.tail_suffix _)).trans hsuffix, ?_⟩
      have hpos := List.length_pos_iff.mpr hrest
      have hlength := hresume.length_le
      have hle := hsuffix.length_le
      rw [List.length_tail] at hlength
      simp only
      omega
    | tooDeep => exact ⟨hsuffix, hstopped⟩
    | exhausted => exact absurd rfl hstopped.1

/-- Taking a token that has been looked at. -/
theorem Advances.taking {t : Token} {q : Parse α} (hs : s.rest.length < size)
    (ht : s.rest.head? = some t)
    (hq : Progress finish size 0 q) : Advances finish 1 (Parser.advance >>= fun _ ↦ q) s := by
  obtain ⟨rest, functions, errors⟩ := s
  obtain ⟨rest, rfl⟩ := List.head?_eq_some_iff.mp ht
  refine Ends.mono (hq ⟨rest, functions, errors⟩ (Nat.lt_of_succ_lt hs))
    (fun _ s' ⟨hsuffix, hlength⟩ ↦ ⟨hsuffix.trans (List.suffix_cons t rest), ?_⟩)
    fun _ s' ⟨hsuffix, hstopped⟩ ↦ ⟨hsuffix.trans (List.suffix_cons t rest), hstopped⟩
  simp only [List.length_cons] at hlength ⊢
  omega

/-! ## Expressions -/

structure AdvancesExpressions (input : Input) (nesting : Nat) : Prop where
  expression : Progress input.finish input.size 1 (Parser.expression input nesting)
  assignment : Progress input.finish input.size 1 (Parser.assignment input nesting)
  binary : ∀ level, Progress input.finish input.size 1 (Parser.binary input nesting level)
  unary : Progress input.finish input.size 1 (Parser.unary input nesting)
  call : Progress input.finish input.size 1 (Parser.call input nesting)
  callArguments : ∀ callee,
    Progress input.finish input.size 1 (Parser.callArguments input nesting callee)
  primary : Progress input.finish input.size 1 (Parser.primary input nesting)

theorem progress_primary (hfinish : input.finish.kind = .eof) {nesting : Nat}
    (hexpression : Progress input.finish input.size 1 (Parser.expression input nesting)) :
    Progress input.finish input.size 1 (Parser.primary input (nesting + 1)) := by
  rw [Parser.primary]
  refine .looking ?_ fun t s hs ht ↦ ?_
  · rw [hfinish]
    exact .fail
  · split
    case h_7 => exact .taking hs ht (.after (.mono .expect (Nat.zero_le _)) fun _ ↦
      .before (.mono .expect (Nat.zero_le _)) fun _ ↦ .pure _)
    case h_9 => exact .taking hs ht (.after (hexpression.mono (Nat.zero_le _)) fun _ ↦
      .before (.mono .expect (Nat.zero_le _)) fun _ ↦ .pure _)
    case h_10 => exact Progress.fail s hs
    all_goals exact .taking hs ht (.pure _)

theorem advancesExpressions (hfinish : input.finish.kind = .eof) :
    ∀ nesting, AdvancesExpressions input nesting
  | 0 => ⟨.tooDeep, .tooDeep, fun _ ↦ .tooDeep, .tooDeep, .tooDeep, fun _ ↦ .tooDeep, .tooDeep⟩
  | nesting + 1 => by
    have ih := advancesExpressions hfinish nesting
    have hle := Nat.le_refl input.size
    refine ⟨?_, ?_, fun level ↦ ?_, ?_, ?_, fun callee ↦ ?_, progress_primary hfinish ih.expression⟩
    · rw [Parser.expression]
      exact ih.assignment
    · rw [Parser.assignment]
      refine .before (ih.binary .or) fun target ↦ .accept (.pure _) fun equals ↦ ?_
      refine .after ((ih.assignment.of_le (Nat.sub_le _ _)).mono (Nat.zero_le _)) fun value ↦ ?_
      cases target
      case var | property => exact .pure _
      all_goals exact .after .report fun _ ↦ .pure _
    · rw [Parser.binary]
      cases level.tighter? with
      | none => exact .before ih.unary fun _ ↦ .chain (ih.unary.mono (Nat.zero_le _)) _ hle _
      | some tighter =>
        have hoperand := (ih.binary tighter).mono (Nat.zero_le 1)
        exact .before (ih.binary tighter) fun _ ↦ .chain hoperand _ hle _
    · rw [Parser.unary]
      exact .acceptIf ih.call fun operator ↦
        .map ((ih.unary.of_le (Nat.sub_le _ _)).mono (Nat.zero_le _))
    · rw [Parser.call]
      exact .before ih.primary fun _ ↦
        .suffixes (fun e ↦ (ih.callArguments e).mono (Nat.zero_le _)) _ hle _
    · rw [Parser.callArguments]
      exact .after (.listed (ih.expression.mono (Nat.zero_le _))) fun _ ↦
        .before .expect fun _ ↦ .pure _

theorem progress_expressionUnless (hfinish : input.finish.kind = .eof) {stop : Kind}
    {nesting : Nat} : Progress input.finish input.size 0 (expressionUnless input stop nesting) := by
  refine .after .check fun stops ↦ ?_
  cases stops with
  | true => exact .pure _
  | false => exact .map ((advancesExpressions hfinish nesting).expression.mono (Nat.zero_le _))

/-! ## Statements -/

theorem progress_expressionStatement (hfinish : input.finish.kind = .eof) : ∀ nesting,
    Progress input.finish input.size 1 (expressionStatement input nesting)
  | 0 => .tooDeep
  | nesting + 1 => by
    rw [expressionStatement]
    exact .before (advancesExpressions hfinish nesting).expression fun _ ↦
      .after (.mono .expect (Nat.zero_le _)) fun _ ↦ .pure _

theorem progress_varDeclaration (hfinish : input.finish.kind = .eof) : ∀ nesting,
    Progress input.finish input.size 1 (varDeclaration input nesting)
  | 0 => .tooDeep
  | nesting + 1 => by
    rw [varDeclaration]
    have hexpression := (advancesExpressions hfinish nesting).expression.mono (Nat.zero_le 1)
    have hrest : ∀ size (name : Token) (initializer : Option Expr), Progress input.finish size 0 (do
        let _ ← expect input .semicolon "';' after variable declaration"
        return Stmt.var name initializer) := fun _ _ _ ↦
      .after (.mono .expect (Nat.zero_le _)) fun _ ↦ .pure _
    refine .before .expect fun name ↦ .accept (hrest _ name none) fun equals ↦ ?_
    exact .after (.map (hexpression.of_le (Nat.sub_le _ _))) (hrest _ name)

theorem progress_returnStatement (hfinish : input.finish.kind = .eof) {keyword : Token} :
    ∀ nesting, Progress input.finish input.size 1 (returnStatement input keyword nesting)
  | 0 => .tooDeep
  | nesting + 1 => by
    rw [returnStatement]
    have hrest : ∀ _ : Unit, Progress input.finish input.size 1 (do
        let value ← expressionUnless input .semicolon nesting
        let _ ← expect input .semicolon "';' after return value"
        return Stmt.return keyword value) := fun _ ↦
      .after (progress_expressionUnless hfinish) fun _ ↦ .before .expect fun _ ↦ .pure _
    refine .after .get fun s ↦ ?_
    split
    · exact .after .report hrest
    · exact hrest ()

theorem progress_functionHead (what : String) :
    Progress input.finish input.size 1 (functionHead input what) := by
  rw [functionHead]
  refine .before .expect fun name ↦ .after (.mono .expect (Nat.zero_le _)) fun _ ↦ ?_
  refine .after (.listed (.mono .expect (Nat.zero_le _))) fun _ ↦ ?_
  exact .after (.mono .expect (Nat.zero_le _)) fun _ ↦ .pure _

structure AdvancesStatements (input : Input) (nesting : Nat) : Prop where
  /-- A declaration advances wherever there is one. -/
  declaration : ∀ s : State, s.rest.length < input.size → s.rest ≠ [] →
    Advances input.finish 1 (Parser.declaration input nesting) s
  classDeclaration : Progress input.finish input.size 1 (Parser.classDeclaration input nesting)
  function : ∀ what, Progress input.finish input.size 1 (Parser.function input what nesting)
  statement : Progress input.finish input.size 1 (Parser.statement input nesting)
  forStatement : Progress input.finish input.size 1 (Parser.forStatement input nesting)
  block : Progress input.finish input.size 1 (Parser.block input nesting)

namespace AdvancesStatements

variable {nesting : Nat}

theorem attempt (hfinish : input.finish.kind = .eof) (ih : AdvancesStatements input nesting) :
    Progress input.finish input.size 1 (Parser.attempt input nesting) := by
  rw [Parser.attempt]
  refine .looking ?_ fun t s hs ht ↦ ?_
  · rw [hfinish]
    exact ih.statement
  · split
    · exact .taking hs ht ((progress_varDeclaration hfinish nesting).mono (Nat.zero_le _))
    · exact .taking hs ht (ih.classDeclaration.mono (Nat.zero_le _))
    · exact .taking hs ht (.map ((ih.function _).mono (Nat.zero_le _)))
    · exact ih.statement s hs

theorem classDeclaration_succ (ih : AdvancesStatements input nesting) :
    Progress input.finish input.size 1 (Parser.classDeclaration input (nesting + 1)) := by
  rw [Parser.classDeclaration]
  have hrest : ∀ size, size ≤ input.size → ∀ name superclass, Progress input.finish size 0 (do
      let _ ← expect input .leftBrace "'\x7b' before class body"
      let methods ← many (fun k ↦ decide (k = .rightBrace))
        (Parser.function input "method" nesting) input.size []
      let _ ← expect input .rightBrace "'\x7d' after class body"
      return Stmt.class name superclass methods) := fun size hsize name superclass ↦
    .after (.mono .expect (Nat.zero_le _)) fun _ ↦
      .after ((Progress.many (fun s hs _ ↦ ih.function _ s hs) _ (Nat.le_refl _) _).of_le hsize)
        fun _ ↦ .after (.mono .expect (Nat.zero_le _)) fun _ ↦ .pure _
  refine .before .expect fun name ↦ .accept (hrest _ (Nat.le_refl _) name none) fun less ↦ ?_
  exact .after (.map (.mono .expect (Nat.zero_le _))) fun superclass ↦
    hrest _ (Nat.sub_le _ _) name superclass

theorem forStatement_succ (hfinish : input.finish.kind = .eof)
    (ih : AdvancesStatements input nesting) :
    Progress input.finish input.size 1 (Parser.forStatement input (nesting + 1)) := by
  rw [Parser.forStatement]
  have hrest : ∀ initializer, Progress input.finish input.size 0 (do
      let condition ← expressionUnless input .semicolon nesting
      let _ ← expect input .semicolon "';' after loop condition"
      let increment ← expressionUnless input .rightParen nesting
      let _ ← expect input .rightParen "')' after for clauses"
      return Stmt.forLoop initializer condition increment (← Parser.statement input nesting)) :=
    fun initializer ↦ .after (progress_expressionUnless hfinish) fun _ ↦
      .after (.mono .expect (Nat.zero_le _)) fun _ ↦
        .after (progress_expressionUnless hfinish) fun _ ↦
        .after (.mono .expect (Nat.zero_le _)) fun _ ↦
          .after (ih.statement.mono (Nat.zero_le _)) fun _ ↦ .pure _
  have hclause := fun p (hp : Progress input.finish input.size 1 p) ↦
    Progress.after (.map (g := some) (hp.mono (Nat.zero_le 1))) hrest
  refine .before .expect fun _ ↦ .after .peek fun t ↦ ?_
  split
  · exact .after .advance fun _ ↦ hrest none
  · exact .after .advance fun _ ↦ hclause _ (progress_varDeclaration hfinish nesting)
  · exact hclause _ (progress_expressionStatement hfinish nesting)

theorem statement_succ (hfinish : input.finish.kind = .eof)
    (ih : AdvancesStatements input nesting) :
    Progress input.finish input.size 1 (Parser.statement input (nesting + 1)) := by
  have hexpression := (advancesExpressions hfinish nesting).expression.mono (Nat.zero_le 1)
  have hstatement := ih.statement.mono (Nat.zero_le 1)
  -- A condition in parentheses and a statement behind it.
  have hguarded : ∀ (what what' : String) (q : Expr → Stmt → Parse Stmt),
      (∀ e st, Progress input.finish input.size 0 (q e st)) → Progress input.finish input.size 0 (do
        let _ ← expect input .leftParen what
        let condition ← Parser.expression input nesting
        let _ ← expect input .rightParen what'
        let body ← Parser.statement input nesting
        q condition body) := fun _ _ q hq ↦
    .after (.mono .expect (Nat.zero_le _)) fun _ ↦ .after hexpression fun condition ↦
      .after (.mono .expect (Nat.zero_le _)) fun _ ↦ .after hstatement fun body ↦ hq condition body
  rw [Parser.statement]
  refine .looking ?_ fun t s hs ht ↦ ?_
  · rw [hfinish]
    exact progress_expressionStatement hfinish nesting
  · split
    · exact .taking hs ht (ih.forStatement.mono (Nat.zero_le _))
    · exact .taking hs ht (hguarded _ _ _ fun _ _ ↦ .pure _)
    · refine .taking hs ht (hguarded _ _ _ fun _ _ ↦ .accept (.pure _) fun _ ↦ ?_)
      exact .after (hstatement.of_le (Nat.sub_le _ _)) fun _ ↦ .pure _
    · exact .taking hs ht (.after hexpression fun _ ↦
        .after (.mono .expect (Nat.zero_le _)) fun _ ↦ .pure _)
    · exact .taking hs ht ((progress_returnStatement hfinish nesting).mono (Nat.zero_le _))
    · exact .taking hs ht (.map (ih.block.mono (Nat.zero_le _)))
    · exact progress_expressionStatement hfinish nesting s hs

theorem of_nesting (hfinish : input.finish.kind = .eof) :
    ∀ nesting, AdvancesStatements input nesting
  | 0 => ⟨fun s hs _ ↦ Progress.tooDeep s hs, .tooDeep, fun _ ↦ .tooDeep, .tooDeep, .tooDeep,
      .tooDeep⟩
  | nesting + 1 =>
    have ih := of_nesting hfinish nesting
    { declaration := fun s hs hrest ↦ by
        rw [declaration_eq_recovering]
        exact .recovering (ih.attempt hfinish) hs hrest
      classDeclaration := classDeclaration_succ ih
      function := fun what ↦ by
        rw [Parser.function]
        exact .before (progress_functionHead what) fun _ ↦
          .after (.insideFunction (ih.statement.mono (Nat.zero_le _))) fun _ ↦ .pure _
      statement := statement_succ hfinish ih
      forStatement := forStatement_succ hfinish ih
      block := by
        rw [Parser.block]
        exact .after (.many ih.declaration _ (Nat.le_refl _) _) fun _ ↦ .before .expect fun _ ↦
          .pure _ }

end AdvancesStatements

end Lox.Parser
