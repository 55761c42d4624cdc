import Lox.Proofs.Syntax.Consumption

/-!
# Which expressions the parser accepts

A parser that has nothing to complain about has read a well-formed expression, and the tokens that
it took are a spelling of that expression. So nothing is skipped, and nothing is made up.
-/

namespace Lox.Parser

variable {input : Input} {nesting : Nat}

/-- What the parsers of expressions read when they may still make some number of nested calls. -/
structure ReadsExpressions (input : Input) (nesting : Nat) : Prop where
  expression : ∀ s, Reads (Parser.expression input nesting) s Expr.WellFormed Expr.spelling
  assignment : ∀ s, Reads (Parser.assignment input nesting) s Expr.WellFormed Expr.spelling
  binary : ∀ level s, Reads (Parser.binary input nesting level) s
    (fun e ↦ e.WellFormed ∧ level.rank ≤ e.rank) Expr.spelling
  unary : ∀ s, Reads (Parser.unary input nesting) s
    (fun e ↦ e.WellFormed ∧ Rank.unary ≤ e.rank) Expr.spelling
  call : ∀ s, Reads (Parser.call input nesting) s
    (fun e ↦ e.WellFormed ∧ Rank.call ≤ e.rank) Expr.spelling
  callArguments : ∀ callee s, Consumes (Parser.callArguments input nesting callee) s fun e ts ↦
    ∀ paren : Token, paren.kind = .leftParen → Extends Rank.call callee e (paren :: ts)
  primary : ∀ s, Reads (Parser.primary input nesting) s
    (fun e ↦ e.WellFormed ∧ Rank.primary ≤ e.rank) Expr.spelling

namespace ReadsExpressions

theorem zero : ReadsExpressions input 0 where
  expression _ := .tooDeep
  assignment _ := .tooDeep
  binary _ _ := .tooDeep
  unary _ := .tooDeep
  call _ := .tooDeep
  callArguments _ _ := .tooDeep
  primary _ := .tooDeep

theorem assignment_succ (ih : ReadsExpressions input nesting) (s : State) :
    Reads (Parser.assignment input (nesting + 1)) s Expr.WellFormed Expr.spelling := by
  rw [Parser.assignment]
  refine Consumes.andThen (ih.binary .or s) fun target s₁ _ _ ts ↦ ?_
  refine Consumes.accept.andThen fun equals? s₂ _ _ us ↦ ?_
  cases equals? with
  | none =>
    refine .pure ?_
    rintro ⟨rfl, _⟩ ⟨⟨htarget, _⟩, hts⟩
    rw [Option.toList_none, List.append_nil, List.append_nil]
    exact ⟨htarget, hts⟩
  | some equals =>
    refine Consumes.andThen (ih.assignment s₂) fun value s₃ _ _ vs ↦ ?_
    cases target with
    | var r =>
      refine .pure ?_
      rintro ⟨hvalue, hvs⟩ ⟨rfl, hequals⟩ ⟨⟨htarget, _⟩, hts⟩
      rw [List.append_nil]
      cases htarget with
      | var hname =>
        exact ⟨.assign hname hvalue, hts.append (.cons (hequals equals rfl) hvs)⟩
    | property object name =>
      refine .pure ?_
      rintro ⟨hvalue, hvs⟩ ⟨rfl, hequals⟩ ⟨⟨htarget, _⟩, hts⟩
      rw [List.append_nil]
      cases htarget with
      | property hobject hrank hname =>
        refine ⟨.setProperty hobject hrank hname hvalue, ?_⟩
        have hback : Spells (.mark .equal :: value.spelling) (equals :: vs) :=
          .cons (hequals equals rfl) hvs
        simpa [Expr.spelling] using hts.append hback
    | _ => exact .report fun _ _ ↦ .pure (R := fun _ _ ↦ True) trivial

/-- A row of operands that bind more tightly than its operators. -/
theorem reads_level {operand : Parse Expr} {level : Level}
    (hoperand : ∀ s, Reads operand s (fun e ↦ e.WellFormed ∧ level.rank < e.rank) Expr.spelling)
    (s : State) : Reads (do
      let left ← operand
      chain operand level.hasOperator level.join input.size left) s
      (fun e ↦ e.WellFormed ∧ level.rank ≤ e.rank) Expr.spelling := by
  refine Consumes.andThen (hoperand s) fun left s₁ _ hs₁ ts ↦ ?_
  refine (consumes_chain (fun s _ ↦ hoperand s) _ left s₁ hs₁).mono ?_
  rintro e us hchain ⟨⟨hleft, hrank⟩, hts⟩
  obtain ⟨he, hspells⟩ := hchain hleft (Nat.le_of_lt hrank)
  exact ⟨he, hspells ts hts⟩

theorem binary_succ (ih : ReadsExpressions input nesting) (level : Level) (s : State) :
    Reads (Parser.binary input (nesting + 1) level) s
      (fun e ↦ e.WellFormed ∧ level.rank ≤ e.rank) Expr.spelling := by
  rw [Parser.binary]
  cases level
  case product => exact reads_level ih.unary s
  all_goals exact reads_level (ih.binary _) s

theorem unary_succ (ih : ReadsExpressions input nesting) (s : State) :
    Reads (Parser.unary input (nesting + 1)) s
      (fun e ↦ e.WellFormed ∧ Rank.unary ≤ e.rank) Expr.spelling := by
  rw [Parser.unary]
  refine Consumes.acceptIf.andThen fun operator? s₁ _ _ ts ↦ ?_
  cases operator? with
  | none =>
    refine Consumes.mono (ih.call s₁) ?_
    rintro e us ⟨⟨he, hrank⟩, hus⟩ ⟨rfl, _⟩
    exact ⟨⟨he, Nat.le_trans (by decide) hrank⟩, hus⟩
  | some operator =>
    refine Consumes.map (ih.unary s₁) ?_
    rintro operand us ⟨⟨hoperand, hrank⟩, hus⟩ ⟨rfl, hoperator⟩
    exact ⟨⟨.unary (of_decide_eq_true (hoperator operator rfl)) hoperand hrank, Nat.le_refl _⟩,
      .cons rfl hus⟩

theorem call_succ (ih : ReadsExpressions input nesting) (s : State) :
    Reads (Parser.call input (nesting + 1)) s
      (fun e ↦ e.WellFormed ∧ Rank.call ≤ e.rank) Expr.spelling := by
  rw [Parser.call]
  refine Consumes.andThen (ih.primary s) fun operand s₁ _ hs₁ ts ↦ ?_
  refine (consumes_suffixes (fun callee s _ ↦ ih.callArguments callee s) _ operand s₁ hs₁).mono ?_
  rintro e us hsuffixes ⟨⟨hoperand, hrank⟩, hts⟩
  obtain ⟨he, hspells⟩ := hsuffixes hoperand (Nat.le_trans (by decide) hrank)
  exact ⟨he, hspells ts hts⟩

theorem callArguments_succ (ih : ReadsExpressions input nesting) (callee : Expr) (s : State) :
    Consumes (Parser.callArguments input (nesting + 1) callee) s fun e ts ↦
      ∀ paren : Token, paren.kind = .leftParen → Extends Rank.call callee e (paren :: ts) := by
  rw [Parser.callArguments]
  refine Consumes.andThen (reads_listed fun s' _ ↦ ih.expression s') fun arguments s₁ _ _ ts ↦ ?_
  refine Consumes.expect.andThen fun close s₂ _ _ us ↦ .pure ?_
  rintro ⟨rfl, hclose⟩ ⟨⟨hroom, harguments⟩, hts⟩ paren hparen
  rw [List.append_nil]
  exact .call hparen hclose hroom harguments hts

theorem primary_succ (hfinish : input.finish.kind = .eof) (ih : ReadsExpressions input nesting)
    (s : State) : Reads (Parser.primary input (nesting + 1)) s
      (fun e ↦ e.WellFormed ∧ Rank.primary ≤ e.rank) Expr.spelling := by
  rw [Parser.primary]
  refine .peek ?_
  cases hrest : s.rest with
  | nil =>
    rw [List.headD_nil, hfinish]
    exact .fail
  | cons t rest =>
    rw [List.headD_cons]
    -- A token that is an expression by itself.
    have alone : ∀ e : Expr, e.WellFormed → Rank.primary ≤ e.rank → Spells e.spelling [t] →
        Reads (Parser.advance >>= fun _ ↦ pure e) s
          (fun e ↦ e.WellFormed ∧ Rank.primary ≤ e.rank) Expr.spelling :=
      fun e he hrank ht ↦ .advance hrest fun s' _ ↦ .pure ⟨⟨he, hrank⟩, ht⟩
    split
    case h_1 hkind | h_2 hkind | h_3 hkind | h_4 hkind | h_5 hkind =>
      refine alone _ .literal (Nat.le_refl _) (.cons ?_ .nil)
      simp only [Glyph.Fits, Token.Denotes, hkind]
    case h_6 hkind => exact alone _ (.self hkind) (Nat.le_refl _) (.cons rfl .nil)
    case h_7 hkind =>
      refine .advance hrest fun s₁ _ ↦ ?_
      refine Consumes.expect.andThen fun dot s₂ _ _ ts ↦ ?_
      refine Consumes.map Consumes.expect ?_
      rintro method us ⟨rfl, hmethod⟩ ⟨rfl, hdot⟩
      exact ⟨⟨.inherited hkind hmethod, Nat.le_refl _⟩, .cons rfl (.cons hdot (.cons rfl .nil))⟩
    case h_8 hkind => exact alone _ (.var hkind) (Nat.le_refl _) (.cons rfl .nil)
    case h_9 hkind =>
      refine .advance hrest fun s₁ _ ↦ ?_
      refine Consumes.andThen (ih.expression s₁) fun inner s₂ _ _ ts ↦ ?_
      refine Consumes.expect.andThen fun close s₃ _ _ us ↦ .pure ?_
      rintro ⟨rfl, hclose⟩ ⟨hinner, hts⟩
      exact ⟨⟨.group hinner, Nat.le_refl _⟩, .cons hkind (hts.append (.cons hclose .nil))⟩
    case h_10 => exact .fail

theorem of_nesting (hfinish : input.finish.kind = .eof) : ∀ nesting, ReadsExpressions input nesting
  | 0 => zero
  | nesting + 1 =>
    have ih := of_nesting hfinish nesting
    { expression := fun s ↦ by rw [Parser.expression]; exact ih.assignment s
      assignment := assignment_succ ih
      binary := binary_succ ih
      unary := unary_succ ih
      call := call_succ ih
      callArguments := callArguments_succ ih
      primary := primary_succ hfinish ih }

end ReadsExpressions

theorem reads_expressionUnless (hfinish : input.finish.kind = .eof) (stop : Kind) (nesting : Nat)
    (s : State) : Reads (expressionUnless input stop nesting) s (fun e? ↦ ∀ e ∈ e?, e.WellFormed)
      (Expr.spellingAfter []) := by
  refine Consumes.check.andThen fun stops s₁ _ _ ts ↦ ?_
  cases stops with
  | true =>
    refine .pure ?_
    rintro rfl
    exact ⟨fun _ h ↦ absurd h (Option.not_mem_none _), .nil⟩
  | false =>
    refine Consumes.map ((ReadsExpressions.of_nesting hfinish nesting).expression s₁) ?_
    rintro e us ⟨he, hus⟩ rfl
    refine ⟨fun e' h ↦ ?_, hus⟩
    rw [← Option.mem_some_iff.mp h]
    exact he

end Lox.Parser
