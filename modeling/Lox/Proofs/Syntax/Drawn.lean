import Lox.Proofs.Syntax.Progress

/-!
# Where the tokens of a tree come from

The parser makes no token up. Every token in a tree is one of those that it was given, of the kind
that its place asks for, every constant is denoted by one of them, and no name has a distance yet.
That does not depend on whether the parser has complained about something: a declaration that is
given up is dropped as a whole, and where the parser goes on after a complaint, it knows how to read
what it complains about.

So what holds of all tokens of a text, as the lexer makes them, holds of all tokens in the tree.
-/

namespace Lox

/-! ## Trees that are drawn from tokens -/

/-- An expression whose tokens have a property and are of the kinds that their places ask for. -/
inductive Expr.Drawn (T : Token → Prop) : Expr → Prop
  | literal {t : Token} {value : Literal} : T t → t.Denotes value → Drawn T (.literal value)
  | group {inner : Expr} : inner.Drawn T → Drawn T (.group inner)
  | unary {operator : Token} {operand : Expr} : T operator →
      operator.kind = .bang ∨ operator.kind = .minus → operand.Drawn T →
      Drawn T (.unary operator operand)
  | binary {left : Expr} {operator : Token} {right : Expr} : left.Drawn T → T operator →
      operator.kind.level?.isSome = true → right.Drawn T → Drawn T (.binary left operator right)
  | logical {left : Expr} {operator : Token} {right : Expr} : left.Drawn T → T operator →
      operator.kind.level?.isSome = true → right.Drawn T → Drawn T (.logical left operator right)
  | var {name : Token} : T name → name.kind = .identifier → Drawn T (.var ⟨name, none⟩)
  | property {object : Expr} {name : Token} : object.Drawn T → T name → name.kind = .identifier →
      Drawn T (.property object name)
  | assign {name : Token} {value : Expr} : T name → name.kind = .identifier → value.Drawn T →
      Drawn T (.assign ⟨name, none⟩ value)
  | setProperty {object : Expr} {name : Token} {value : Expr} : object.Drawn T → T name →
      name.kind = .identifier → value.Drawn T → Drawn T (.setProperty object name value)
  | call {callee : Expr} {paren : Token} {arguments : List Expr} : callee.Drawn T → T paren →
      paren.kind = .rightParen → (∀ argument ∈ arguments, argument.Drawn T) →
      Drawn T (.call callee paren arguments)
  | self {keyword : Token} : T keyword → keyword.kind = .this → Drawn T (.self ⟨keyword, none⟩)
  | inherited {keyword method : Token} : T keyword → keyword.kind = .super → T method →
      method.kind = .identifier → Drawn T (.inherited ⟨keyword, none⟩ method)

mutual

/-- A statement whose tokens have a property and are of the kinds that their places ask for, and in
which no declaration is a body. -/
inductive Stmt.Drawn (T : Token → Prop) : Stmt → Prop
  | expression {value : Expr} : value.Drawn T → Stmt.Drawn T (.expression value)
  | print {value : Expr} : value.Drawn T → Stmt.Drawn T (.print value)
  | var {name : Token} {initializer : Option Expr} : T name → name.kind = .identifier →
      (∀ e ∈ initializer, e.Drawn T) → Stmt.Drawn T (.var name initializer)
  | block {body : List Stmt} : (∀ st ∈ body, st.Drawn T) → Stmt.Drawn T (.block body)
  | branch {condition : Expr} {yes : Stmt} {no : Option Stmt} : condition.Drawn T → yes.Drawn T →
      yes.isDeclaration = false → (∀ st ∈ no, st.Drawn T) → (∀ st ∈ no, st.isDeclaration = false) →
      Stmt.Drawn T (.branch condition yes no)
  | loop {condition : Expr} {body : Stmt} : condition.Drawn T → body.Drawn T →
      body.isDeclaration = false → Stmt.Drawn T (.loop condition body)
  | forLoop {initializer : Option Stmt} {condition increment : Option Expr} {body : Stmt} :
      (∀ st ∈ initializer, st.Drawn T) → (∀ e ∈ condition, e.Drawn T) →
      (∀ e ∈ increment, e.Drawn T) → body.Drawn T → body.isDeclaration = false →
      Stmt.Drawn T (.forLoop initializer condition increment body)
  | function {f : FunDecl} : f.Drawn T → Stmt.Drawn T (.function f)
  | return {keyword : Token} {value : Option Expr} : T keyword → keyword.kind = .return →
      (∀ e ∈ value, e.Drawn T) → Stmt.Drawn T (.return keyword value)
  | class {name : Token} {superclass : Option Reference} {methods : List FunDecl} : T name →
      name.kind = .identifier →
      (∀ r ∈ superclass, T r.name ∧ r.name.kind = .identifier ∧ r.distance = none) →
      (∀ f ∈ methods, f.Drawn T) → Stmt.Drawn T (.class name superclass methods)

/-- A function or a method. -/
inductive FunDecl.Drawn (T : Token → Prop) : FunDecl → Prop
  | mk {name : Token} {parameters : List Token} {body : Stmt} : T name → name.kind = .identifier →
      (∀ p ∈ parameters, T p ∧ p.kind = .identifier) → body.Drawn T →
      body.isDeclaration = false → FunDecl.Drawn T (.mk name parameters body)

end

variable {T : Token → Prop}

theorem Level.drawn_join {left right : Expr} {level : Level} {operator : Token}
    (hleft : left.Drawn T)
    (hoperator : T operator) (hlevel : level.hasOperator operator.kind = true)
    (hright : right.Drawn T) : (level.join left operator right).Drawn T := by
  have hsome : operator.kind.level?.isSome = true := by
    rw [Level.hasOperator_iff.mp hlevel]
    rfl
  cases level with
  | or | and => exact .logical hleft hoperator hsome hright
  | _ => exact .binary hleft hoperator hsome hright

namespace Parser

variable {α β : Type} {input : Input} {nesting : Nat}

/-- All tokens that are left have a property. -/
def State.All (T : Token → Prop) (s : State) : Prop := ∀ t ∈ s.rest, T t

/-- Among tokens of a property, whatever a parser returns is as it is said to be. However it ends,
it leaves only such tokens behind. -/
def Gives (T : Token → Prop) (p : Parse α) (P : α → Prop) : Prop :=
  ∀ s : State, s.All T → Ends p s (fun a s' ↦ s'.All T ∧ P a) fun _ s' ↦ s'.All T

namespace Gives

variable {p : Parse α} {q : α → Parse β} {P : α → Prop} {Q : β → Prop}

theorem mono {P' : α → Prop} (h : Gives T p P) (hP : ∀ a, P a → P' a) : Gives T p P' := fun s hs ↦
  Ends.mono (h s hs) (fun a _ ⟨hs', ha⟩ ↦ ⟨hs', hP a ha⟩) fun _ _ h ↦ h

theorem pure {a : α} (ha : P a) : Gives T (Pure.pure a) P := fun _ hs ↦ Ends.pure ⟨hs, ha⟩

theorem bind (hp : Gives T p P) (hq : ∀ a, P a → Gives T (q a) Q) : Gives T (p >>= q) Q := by
  intro s hs
  exact Ends.bind (Ends.mono (hp s hs) (fun a s' ⟨hs', ha⟩ ↦ hq a ha s' hs') fun _ _ h ↦ h)

/-- What comes first does not matter. -/
theorem after (hp : Gives T p P) (hq : ∀ a, Gives T (q a) Q) : Gives T (p >>= q) Q :=
  bind hp fun a _ ↦ hq a

theorem map {g : α → β} (hp : Gives T p P) (hg : ∀ a, P a → Q (g a)) : Gives T (g <$> p) Q := by
  rw [← bind_pure_comp]
  exact bind hp fun a ha ↦ pure (hg a ha)

/-! ## Single tokens -/

theorem throw {abort : Abort} : Gives T (MonadExcept.throw abort : Parse α) P := fun _ hs ↦
  Ends.throw hs

theorem fail {error : SyntaxError} : Gives T (Parser.fail input error : Parse α) P := fun _ hs ↦ hs

theorem report {t : Token} {error : SyntaxError} : Gives T (Parser.report t error) fun _ ↦ True :=
  fun _ hs ↦ ⟨hs, trivial⟩

theorem check {k : Kind → Bool} : Gives T (Parser.check k) fun _ ↦ True := fun _ hs ↦ ⟨hs, trivial⟩

theorem get : Gives T (MonadState.get : Parse State) fun _ ↦ True := fun _ hs ↦ ⟨hs, trivial⟩

theorem advance : Gives T Parser.advance fun _ ↦ True := fun _ hs ↦
  ⟨fun t ht ↦ hs t (List.mem_of_mem_tail ht), trivial⟩

/-- The next token, unless it is the one that marks the end. -/
theorem peek (hfinish : input.finish.kind = .eof) :
    Gives T (Parser.peek input) fun t ↦ t.kind ≠ .eof → T t := by
  intro s hs
  refine ⟨hs, ?_⟩
  cases hrest : s.rest with
  | nil => exact fun h ↦ absurd hfinish h
  | cons t rest => exact fun _ ↦ hs t (hrest ▸ List.mem_cons_self)

theorem acceptIf {k : Kind → Bool} :
    Gives T (Parser.acceptIf k) fun o ↦ ∀ t ∈ o, T t ∧ k t.kind = true := by
  rintro ⟨rest, functions, errors⟩ hs
  cases rest with
  | nil => exact ⟨hs, fun _ h ↦ by cases h⟩
  | cons t rest =>
    have hmore := List.forall_mem_cons.mp hs
    rw [Ends]
    by_cases ht : k t.kind = true
    · rw [acceptIf_eq_some ht]
      exact ⟨hmore.2, by rintro _ ⟨⟩; exact ⟨hmore.1, ht⟩⟩
    · rw [acceptIf_eq_none fun u hu ↦ by
        rw [← Option.mem_some_iff.mp hu]; exact Bool.eq_false_iff.mpr ht]
      exact ⟨hs, fun _ h ↦ by cases h⟩

theorem accept {kind : Kind} :
    Gives T (Parser.accept kind) fun o ↦ ∀ t ∈ o, T t ∧ t.kind = kind :=
  acceptIf.mono fun _ h t ht ↦ ⟨(h t ht).1, of_decide_eq_true (h t ht).2⟩

theorem expect {kind : Kind} {what : String} :
    Gives T (Parser.expect input kind what) fun t ↦ T t ∧ t.kind = kind := by
  refine bind accept fun o ho ↦ ?_
  cases o with
  | none => exact fail
  | some t => exact pure (ho t rfl)

theorem insideFunction (hp : Gives T p P) : Gives T (Parser.insideFunction p) P := by
  intro s hs
  have h := hp { s with functions := s.functions + 1 } hs
  rw [Ends, Parser.insideFunction]
  cases hr : p { s with functions := s.functions + 1 } with
  | ok a s' =>
    have hok := Ends.of_ok h hr
    exact hok
  | error abort s' =>
    have herror := Ends.of_error h hr
    exact herror

/-- What is skipped leaves a part of the tokens. -/
theorem recovering (hp : Gives T p P) : Gives T (Parser.recovering p) fun o ↦ ∀ a ∈ o, P a := by
  intro s hs
  rw [Ends, Parser.recovering]
  cases hr : p s with
  | ok a s' =>
    obtain ⟨hs', ha⟩ := Ends.of_ok (hp s hs) hr
    exact ⟨hs', by rintro _ ⟨⟩; exact ha⟩
  | error abort s' =>
    have hs' : s'.All T := (hp s hs).of_error hr
    cases abort with
    | fault =>
      exact ⟨fun t ht ↦ hs' t (List.mem_of_mem_tail ((resume_suffix_tail s'.rest).subset ht)),
        fun _ h ↦ by cases h⟩
    | tooDeep | exhausted => exact hs'

/-! ## Loops -/

theorem chain {operand : Parse Expr} {isOperator : Kind → Bool}
    {join : Expr → Token → Expr → Expr} {P : Expr → Prop} (hoperand : Gives T operand P)
    (hjoin : ∀ left operator right, P left → T operator → isOperator operator.kind = true →
      P right → P (join left operator right)) :
    ∀ bound left, P left → Gives T (Parser.chain operand isOperator join bound left) P
  | 0, _, _ => throw
  | bound + 1, left, hleft => by
    rw [Parser.chain]
    refine bind acceptIf fun o ho ↦ ?_
    cases o with
    | none => exact pure hleft
    | some operator =>
      obtain ⟨hoperator, hkind⟩ := ho operator rfl
      exact bind hoperand fun right hright ↦
        chain hoperand hjoin bound _ (hjoin left operator right hleft hoperator hkind hright)

theorem suffixes {arguments : Expr → Parse Expr}
    (harguments : ∀ e, e.Drawn T → Gives T (arguments e) (Expr.Drawn T)) :
    ∀ bound e, e.Drawn T → Gives T (Parser.suffixes input arguments bound e) (Expr.Drawn T)
  | 0, _, _ => throw
  | bound + 1, e, he => by
    rw [Parser.suffixes]
    refine after accept fun paren ↦ ?_
    cases paren with
    | some _ => exact bind (harguments e he) fun e' he' ↦ suffixes harguments bound e' he'
    | none =>
      refine after accept fun dot ↦ ?_
      cases dot with
      | some _ =>
        exact bind expect fun name hname ↦
          suffixes harguments bound _ (.property he hname.1 hname.2)
      | none => exact pure he

theorem many {stops : Kind → Bool} (hp : Gives T p P) : ∀ bound read, (∀ a ∈ read, P a) →
    Gives T (Parser.many stops p bound read) fun as ↦ ∀ a ∈ as, P a
  | 0, _, _ => throw
  | bound + 1, read, hread => by
    rw [Parser.many]
    refine after check fun more ↦ ?_
    cases more with
    | false => exact pure fun a ha ↦ hread a (List.mem_reverse.mp ha)
    | true => exact bind hp fun a ha ↦ many hp bound _ (List.forall_mem_cons.mpr ⟨ha, hread⟩)

theorem reportIf {c : Prop} [Decidable c] {error : SyntaxError}
    (hfinish : input.finish.kind = .eof) (hp : Gives T p P) : Gives T (do
      if c then Parser.report (← Parser.peek input) error
      p) P := by
  by_cases h : c
  · rw [if_pos h]
    exact after (peek hfinish) fun _ ↦ after report fun _ ↦ hp
  · rw [if_neg h]
    exact hp

theorem commaSeparated {what : String} (hfinish : input.finish.kind = .eof) (hp : Gives T p P) :
    ∀ bound room read, (∀ a ∈ read, P a) →
      Gives T (Parser.commaSeparated input what p bound room read) fun as ↦ ∀ a ∈ as, P a
  | 0, _, _, _ => throw
  | bound + 1, room, read, hread => by
    rw [Parser.commaSeparated]
    refine reportIf hfinish (bind hp fun a ha ↦ after accept fun comma ↦ ?_)
    have hread' := List.forall_mem_cons.mpr ⟨ha, hread⟩
    cases comma with
    | none => exact pure fun b hb ↦ hread' b (List.mem_reverse.mp hb)
    | some _ => exact commaSeparated hfinish hp bound _ _ hread'

theorem listed {what : String} (hfinish : input.finish.kind = .eof) (hp : Gives T p P) :
    Gives T (Parser.listed input what p) fun as ↦ ∀ a ∈ as, P a := by
  refine after check fun closes ↦ ?_
  cases closes with
  | true => exact pure (List.forall_mem_nil _)
  | false => exact commaSeparated hfinish hp _ _ _ (List.forall_mem_nil _)

end Gives

/-! ## Expressions -/

/-- The parsers of expressions, with some nested calls left. -/
structure DrawsExpressions (T : Token → Prop) (input : Input) (nesting : Nat) : Prop where
  expression : Gives T (expression input nesting) (Expr.Drawn T)
  assignment : Gives T (assignment input nesting) (Expr.Drawn T)
  binary : ∀ level, Gives T (binary input nesting level) (Expr.Drawn T)
  unary : Gives T (unary input nesting) (Expr.Drawn T)
  call : Gives T (call input nesting) (Expr.Drawn T)
  callArguments : ∀ callee, callee.Drawn T →
    Gives T (callArguments input nesting callee) (Expr.Drawn T)
  primary : Gives T (primary input nesting) (Expr.Drawn T)

namespace DrawsExpressions

theorem assignment_succ (ih : DrawsExpressions T input nesting) :
    Gives T (Parser.assignment input (nesting + 1)) (Expr.Drawn T) := by
  rw [Parser.assignment]
  refine .bind (ih.binary .or) fun target htarget ↦ .after .accept fun equals ↦ ?_
  cases equals with
  | none => exact .pure htarget
  | some equals =>
    refine .bind ih.assignment fun value hvalue ↦ ?_
    cases htarget with
    | var hname hkind => exact .pure (.assign hname hkind hvalue)
    | property hobject hname hkind => exact .pure (.setProperty hobject hname hkind hvalue)
    | literal ht hdenotes => exact .after .report fun _ ↦ .pure (.literal ht hdenotes)
    | group hinner => exact .after .report fun _ ↦ .pure (.group hinner)
    | unary hoperator hkind hoperand =>
      exact .after .report fun _ ↦ .pure (.unary hoperator hkind hoperand)
    | binary hleft hoperator hkind hright =>
      exact .after .report fun _ ↦ .pure (.binary hleft hoperator hkind hright)
    | logical hleft hoperator hkind hright =>
      exact .after .report fun _ ↦ .pure (.logical hleft hoperator hkind hright)
    | assign hname hkind hvalue => exact .after .report fun _ ↦ .pure (.assign hname hkind hvalue)
    | setProperty hobject hname hkind hvalue =>
      exact .after .report fun _ ↦ .pure (.setProperty hobject hname hkind hvalue)
    | call hcallee hparen hkind harguments =>
      exact .after .report fun _ ↦ .pure (.call hcallee hparen hkind harguments)
    | self hkeyword hkind => exact .after .report fun _ ↦ .pure (.self hkeyword hkind)
    | inherited hkeyword hkind hmethod hkind' =>
      exact .after .report fun _ ↦ .pure (.inherited hkeyword hkind hmethod hkind')

theorem binary_succ (ih : DrawsExpressions T input nesting) (level : Level) :
    Gives T (Parser.binary input (nesting + 1) level) (Expr.Drawn T) := by
  have hchain : ∀ {operand : Parse Expr}, Gives T operand (Expr.Drawn T) →
      Gives T (operand >>= Parser.chain operand level.hasOperator level.join input.size)
        (Expr.Drawn T) :=
    fun hoperand ↦ .bind hoperand fun left hleft ↦
      .chain hoperand (fun _ _ _ ↦ Level.drawn_join) _ left hleft
  rw [Parser.binary]
  cases level.tighter? with
  | none => exact hchain ih.unary
  | some tighter => exact hchain (ih.binary tighter)

theorem unary_succ (ih : DrawsExpressions T input nesting) :
    Gives T (Parser.unary input (nesting + 1)) (Expr.Drawn T) := by
  rw [Parser.unary]
  refine .bind .acceptIf fun operator hoperator ↦ ?_
  cases operator with
  | none => exact ih.call
  | some operator =>
    obtain ⟨hdrawn, hkind⟩ := hoperator operator rfl
    exact .map ih.unary fun _ ↦ .unary hdrawn (of_decide_eq_true hkind)

theorem callArguments_succ (hfinish : input.finish.kind = .eof)
    (ih : DrawsExpressions T input nesting) {callee : Expr} (hcallee : callee.Drawn T) :
    Gives T (Parser.callArguments input (nesting + 1) callee) (Expr.Drawn T) := by
  rw [Parser.callArguments]
  exact .bind (.listed hfinish ih.expression) fun arguments harguments ↦
    .bind .expect fun paren hparen ↦ .pure (.call hcallee hparen.1 hparen.2 harguments)

theorem primary_succ (hfinish : input.finish.kind = .eof) (ih : DrawsExpressions T input nesting) :
    Gives T (Parser.primary input (nesting + 1)) (Expr.Drawn T) := by
  -- A token that is a constant or denotes one.
  have hconstant : ∀ {t : Token} {value : Literal}, (t.kind ≠ .eof → T t) → t.Denotes value →
      Gives T (do Parser.advance; return Expr.literal value) (Expr.Drawn T) := by
    intro t value ht hdenotes
    refine .after .advance fun _ ↦ .pure (.literal (ht fun heof ↦ ?_) hdenotes)
    rw [Token.Denotes, heof] at hdenotes
    exact hdenotes
  rw [Parser.primary]
  refine .bind (.peek hfinish) fun t ht ↦ ?_
  have hdrawn : ∀ {kind : Kind}, t.kind = kind → kind ≠ .eof → T t := by
    rintro _ rfl hkind
    exact ht hkind
  split
  case h_6 hkind => exact .after .advance fun _ ↦ .pure (.self (hdrawn hkind (by decide)) hkind)
  case h_7 hkind =>
    exact .after .advance fun _ ↦ .after .expect fun _ ↦ .bind .expect fun method hmethod ↦
      .pure (.inherited (hdrawn hkind (by decide)) hkind hmethod.1 hmethod.2)
  case h_8 hkind => exact .after .advance fun _ ↦ .pure (.var (hdrawn hkind (by decide)) hkind)
  case h_9 =>
    exact .after .advance fun _ ↦ .bind ih.expression fun inner hinner ↦
      .after .expect fun _ ↦ .pure (.group hinner)
  case h_10 => exact .fail
  case h_1 hkind | h_2 hkind | h_3 hkind | h_4 hkind | h_5 hkind =>
    exact hconstant ht (by rw [Token.Denotes, hkind])

theorem of_nesting (hfinish : input.finish.kind = .eof) :
    ∀ nesting, DrawsExpressions T input nesting
  | 0 => ⟨.throw, .throw, fun _ ↦ .throw, .throw, .throw, fun _ _ ↦ .throw, .throw⟩
  | nesting + 1 =>
    have ih := of_nesting hfinish nesting
    { expression := by
        rw [Parser.expression]
        exact ih.assignment
      assignment := ih.assignment_succ
      binary := ih.binary_succ
      unary := ih.unary_succ
      call := by
        rw [Parser.call]
        exact .bind ih.primary fun e he ↦ .suffixes ih.callArguments _ e he
      callArguments := fun _ hcallee ↦ ih.callArguments_succ hfinish hcallee
      primary := ih.primary_succ hfinish }

end DrawsExpressions

theorem Gives.expression (hfinish : input.finish.kind = .eof) (nesting : Nat) :
    Gives T (Parser.expression input nesting) (Expr.Drawn T) :=
  (DrawsExpressions.of_nesting hfinish nesting).expression

theorem Gives.expressionUnless (hfinish : input.finish.kind = .eof) {stop : Kind} (nesting : Nat) :
    Gives T (Parser.expressionUnless input stop nesting) fun o ↦ ∀ e ∈ o, e.Drawn T := by
  refine after check fun stops ↦ ?_
  cases stops with
  | true => exact pure fun _ h ↦ by cases h
  | false => exact map (expression hfinish nesting) fun e he ↦ by rintro _ ⟨⟩; exact he

/-! ## Statements -/

/-- A statement that declares nothing, as it may be a body. -/
def IsBody (T : Token → Prop) (st : Stmt) : Prop := st.Drawn T ∧ st.isDeclaration = false

theorem Gives.expressionStatement (hfinish : input.finish.kind = .eof) :
    ∀ nesting, Gives T (Parser.expressionStatement input nesting) (IsBody T)
  | 0 => throw
  | nesting + 1 => by
    rw [Parser.expressionStatement]
    exact bind (expression hfinish nesting) fun value hvalue ↦
      after expect fun _ ↦ pure ⟨.expression hvalue, rfl⟩

theorem Gives.varDeclaration (hfinish : input.finish.kind = .eof) :
    ∀ nesting, Gives T (Parser.varDeclaration input nesting) (Stmt.Drawn T)
  | 0 => throw
  | nesting + 1 => by
    rw [Parser.varDeclaration]
    refine bind expect fun name hname ↦ after accept fun equals ↦ ?_
    have hrest : ∀ initializer : Option Expr, (∀ e ∈ initializer, e.Drawn T) → Gives T (do
        let _ ← Parser.expect input .semicolon "';' after variable declaration"
        return Stmt.var name initializer) (Stmt.Drawn T) := fun _ hinitializer ↦
      after expect fun _ ↦ pure (.var hname.1 hname.2 hinitializer)
    cases equals with
    | none => exact hrest none fun _ h ↦ by cases h
    | some _ =>
      refine bind (map (expression hfinish nesting) fun e he ↦ ?_) hrest
      rintro _ ⟨⟩
      exact he

theorem Gives.returnStatement (hfinish : input.finish.kind = .eof) {keyword : Token}
    (hkeyword : T keyword) (hkind : keyword.kind = .return) :
    ∀ nesting, Gives T (Parser.returnStatement input keyword nesting) (IsBody T)
  | 0 => throw
  | nesting + 1 => by
    rw [Parser.returnStatement]
    have hrest : ∀ _ : Unit, Gives T (do
        let value ← Parser.expressionUnless input .semicolon nesting
        let _ ← Parser.expect input .semicolon "';' after return value"
        return Stmt.return keyword value) (IsBody T) := fun _ ↦
      bind (expressionUnless hfinish nesting) fun value hvalue ↦
        after expect fun _ ↦ pure ⟨.return hkeyword hkind hvalue, rfl⟩
    refine after get fun s ↦ ?_
    split
    · exact after report hrest
    · exact hrest ()

theorem Gives.functionHead (hfinish : input.finish.kind = .eof) {what : String} :
    Gives T (Parser.functionHead input what) fun (name, parameters) ↦
      (T name ∧ name.kind = .identifier) ∧ ∀ p ∈ parameters, T p ∧ p.kind = .identifier := by
  rw [Parser.functionHead]
  exact bind expect fun name hname ↦ after expect fun _ ↦
    bind (listed hfinish expect) fun parameters hparameters ↦
      after expect fun _ ↦ pure ⟨hname, hparameters⟩

/-- The parsers of statements, with some nested calls left. -/
structure DrawsStatements (T : Token → Prop) (input : Input) (nesting : Nat) : Prop where
  declaration : Gives T (declaration input nesting) fun o ↦ ∀ st ∈ o, st.Drawn T
  classDeclaration : Gives T (classDeclaration input nesting) (Stmt.Drawn T)
  function : ∀ what, Gives T (function input what nesting) (FunDecl.Drawn T)
  statement : Gives T (statement input nesting) (IsBody T)
  forStatement : Gives T (forStatement input nesting) (IsBody T)
  block : Gives T (block input nesting) fun body ↦ ∀ st ∈ body, st.Drawn T

namespace DrawsStatements

theorem attempt (hfinish : input.finish.kind = .eof) (ih : DrawsStatements T input nesting) :
    Gives T (Parser.attempt input nesting) (Stmt.Drawn T) := by
  rw [Parser.attempt]
  refine .after (.peek hfinish) fun t ↦ ?_
  split
  · exact .after .advance fun _ ↦ .varDeclaration hfinish nesting
  · exact .after .advance fun _ ↦ ih.classDeclaration
  · exact .after .advance fun _ ↦ .map (ih.function _) fun _ ↦ .function
  · exact ih.statement.mono fun _ h ↦ h.1

theorem classDeclaration_succ (ih : DrawsStatements T input nesting) :
    Gives T (Parser.classDeclaration input (nesting + 1)) (Stmt.Drawn T) := by
  rw [Parser.classDeclaration]
  refine .bind .expect fun name hname ↦ .after .accept fun less ↦ ?_
  have hrest : ∀ superclass : Option Reference,
      (∀ r ∈ superclass, T r.name ∧ r.name.kind = .identifier ∧ r.distance = none) → Gives T (do
        let _ ← expect input .leftBrace "'\x7b' before class body"
        let methods ← many (fun k ↦ decide (k = .rightBrace))
          (Parser.function input "method" nesting) input.size []
        let _ ← expect input .rightBrace "'\x7d' after class body"
        return Stmt.class name superclass methods) (Stmt.Drawn T) := fun superclass hsuperclass ↦
    .after .expect fun _ ↦ .bind (.many (ih.function _) _ _ (List.forall_mem_nil _))
      fun methods hmethods ↦ .after .expect fun _ ↦
        .pure (.class hname.1 hname.2 hsuperclass hmethods)
  cases less with
  | none => exact hrest none fun _ h ↦ by cases h
  | some _ =>
    refine .bind (.map .expect fun t ht ↦ ?_) hrest
    rintro _ ⟨⟩
    exact ⟨ht.1, ht.2, rfl⟩

theorem function_succ (hfinish : input.finish.kind = .eof) (ih : DrawsStatements T input nesting)
    (what : String) : Gives T (Parser.function input what (nesting + 1)) (FunDecl.Drawn T) := by
  rw [Parser.function]
  refine .bind (.functionHead hfinish) ?_
  rintro ⟨name, parameters⟩ ⟨hname, hparameters⟩
  exact .bind (.insideFunction ih.statement) fun body hbody ↦
    .pure (.mk hname.1 hname.2 hparameters hbody.1 hbody.2)

theorem forStatement_succ (hfinish : input.finish.kind = .eof)
    (ih : DrawsStatements T input nesting) :
    Gives T (Parser.forStatement input (nesting + 1)) (IsBody T) := by
  rw [Parser.forStatement]
  have hrest : ∀ initializer : Option Stmt, (∀ st ∈ initializer, st.Drawn T) → Gives T (do
      let condition ← expressionUnless input .semicolon nesting
      let _ ← expect input .semicolon "';' after loop condition"
      let increment ← expressionUnless input .rightParen nesting
      let _ ← expect input .rightParen "')' after for clauses"
      return Stmt.forLoop initializer condition increment (← Parser.statement input nesting))
      (IsBody T) := fun initializer hinitializer ↦
    .bind (.expressionUnless hfinish nesting) fun condition hcondition ↦ .after .expect fun _ ↦
      .bind (.expressionUnless hfinish nesting) fun increment hincrement ↦ .after .expect fun _ ↦
        .bind ih.statement fun body hbody ↦
          .pure ⟨.forLoop hinitializer hcondition hincrement hbody.1 hbody.2, rfl⟩
  have hclause : ∀ {p : Parse Stmt}, Gives T p (Stmt.Drawn T) →
      Gives T (some <$> p) fun o ↦ ∀ st ∈ o, st.Drawn T := fun hp ↦
    .map hp fun st hst ↦ by rintro _ ⟨⟩; exact hst
  refine .after .expect fun _ ↦ .after (.peek hfinish) fun t ↦ ?_
  split
  · exact .after .advance fun _ ↦ hrest none fun _ h ↦ by cases h
  · exact .after .advance fun _ ↦ .bind (hclause (.varDeclaration hfinish nesting)) hrest
  · refine .bind (hclause ?_) hrest
    exact (Gives.expressionStatement hfinish nesting).mono fun _ h ↦ h.1

theorem statement_succ (hfinish : input.finish.kind = .eof) (ih : DrawsStatements T input nesting) :
    Gives T (Parser.statement input (nesting + 1)) (IsBody T) := by
  have hexpression : Gives T (Parser.expression input nesting) (Expr.Drawn T) :=
    .expression hfinish nesting
  -- A condition in parentheses and a statement behind it.
  have hguarded : ∀ (what what' : String) (q : Expr → Stmt → Parse Stmt),
      (∀ e st, e.Drawn T → IsBody T st → Gives T (q e st) (IsBody T)) → Gives T (do
        let _ ← expect input .leftParen what
        let condition ← Parser.expression input nesting
        let _ ← expect input .rightParen what'
        let body ← Parser.statement input nesting
        q condition body) (IsBody T) := fun _ _ q hq ↦
    .after .expect fun _ ↦ .bind hexpression fun condition hcondition ↦ .after .expect fun _ ↦
      .bind ih.statement fun body hbody ↦ hq condition body hcondition hbody
  rw [Parser.statement]
  refine .bind (.peek hfinish) fun t ht ↦ ?_
  split
  case h_1 => exact .after .advance fun _ ↦ ih.forStatement
  case h_2 =>
    exact .after .advance fun _ ↦ hguarded _ _ _ fun _ _ he hst ↦
      .pure ⟨.loop he hst.1 hst.2, rfl⟩
  case h_3 =>
    refine .after .advance fun _ ↦ hguarded _ _ _ fun condition yes hcondition hyes ↦
      .after .accept fun otherwise ↦ ?_
    cases otherwise with
    | none =>
      exact .pure ⟨.branch hcondition hyes.1 hyes.2 (fun _ h ↦ by cases h) (fun _ h ↦ by cases h),
        rfl⟩
    | some _ =>
      refine .bind ih.statement fun no hno ↦ .pure ⟨.branch hcondition hyes.1 hyes.2 ?_ ?_, rfl⟩
      · rintro _ ⟨⟩
        exact hno.1
      · rintro _ ⟨⟩
        exact hno.2
  case h_4 =>
    exact .after .advance fun _ ↦ .bind hexpression fun _ hvalue ↦ .after .expect fun _ ↦
      .pure ⟨.print hvalue, rfl⟩
  case h_5 hkind =>
    have hkeyword : T t := ht (by rw [hkind]; decide)
    exact .after .advance fun _ ↦ .returnStatement hfinish hkeyword hkind nesting
  case h_6 => exact .after .advance fun _ ↦ .map ih.block fun _ hbody ↦ ⟨.block hbody, rfl⟩
  case h_7 => exact .expressionStatement hfinish nesting

/-- Of the declarations in a row, those that were not given up are left. -/
theorem row {body : List (Option Stmt)} (h : ∀ o ∈ body, ∀ st ∈ o, st.Drawn T) :
    ∀ st ∈ body.filterMap id, st.Drawn T := fun st hst ↦ by
  obtain ⟨o, ho, hst⟩ := List.mem_filterMap.mp hst
  exact h o ho st hst

theorem of_nesting (hfinish : input.finish.kind = .eof) :
    ∀ nesting, DrawsStatements T input nesting
  | 0 => ⟨.throw, .throw, fun _ ↦ .throw, .throw, .throw, .throw⟩
  | nesting + 1 =>
    have ih := of_nesting hfinish nesting
    { declaration := by
        rw [declaration_eq_recovering]
        exact .recovering (ih.attempt hfinish)
      classDeclaration := ih.classDeclaration_succ
      function := ih.function_succ hfinish
      statement := ih.statement_succ hfinish
      forStatement := ih.forStatement_succ hfinish
      block := by
        rw [Parser.block]
        exact .bind (.many ih.declaration _ _ (List.forall_mem_nil _)) fun body hbody ↦
          .after .expect fun _ ↦ .pure (row hbody) }

end DrawsStatements

/-- What is known of a parser among tokens of a property is known of its result on such tokens. -/
theorem Gives.of_run {p : Input → Parse α} {P : α → Prop} {tokens : List Token} {finish : Token}
    {a : α} (hp : Gives T (p ⟨finish, tokens.length + 1⟩) P) (hT : ∀ t ∈ tokens, T t)
    (h : (run p tokens finish).result = .ok a) : P a := by
  rw [run] at h
  split at h
  · rename_i a' s' hrun
    obtain rfl : a' = a := Except.ok.inj h
    exact ((hp ⟨tokens, 0, []⟩ hT).of_ok hrun).2
  · cases h

end Parser

variable {nesting : Nat} {tokens : List Token} {finish : Token}

/-- A program is drawn from the tokens that it was parsed from, whether something was complained
about or not. -/
theorem drawn_of_parseProgram {program : List Stmt} (hfinish : finish.kind = .eof)
    (hT : ∀ t ∈ tokens, T t) (h : (parseProgram nesting tokens finish).result = .ok program) :
    ∀ st ∈ program, st.Drawn T := by
  have hgives : Parser.Gives T (Parser.program ⟨finish, tokens.length + 1⟩ nesting)
      fun program ↦ ∀ st ∈ program, st.Drawn T :=
    .bind (.many (Parser.DrawsStatements.of_nesting hfinish nesting).declaration _ _
      (List.forall_mem_nil _)) fun _ hbody ↦ .pure (Parser.DrawsStatements.row hbody)
  exact hgives.of_run hT h

/-- So is a single expression. -/
theorem drawn_of_parseExpression {e : Expr} (hfinish : finish.kind = .eof)
    (hT : ∀ t ∈ tokens, T t) (h : (parseExpression nesting tokens finish).result = .ok e) :
    e.Drawn T := by
  have hgives : Parser.Gives T (Parser.wholeExpression ⟨finish, tokens.length + 1⟩ nesting)
      (Expr.Drawn T) := by
    refine .bind (.expression hfinish nesting) fun e he ↦ .after .check fun more ↦ ?_
    cases more with
    | true => exact Parser.Gives.after (P := fun _ ↦ True) .fail fun _ ↦ .pure he
    | false => exact .pure he
  exact hgives.of_run hT h

end Lox
