import Lox.Proofs.Lines.Compiling
import Lox.Proofs.Scoping.Depth

/-!
# How high an expression may be

The resolver makes one nested call for each level of an expression, so its bound on nesting is a
bound on the height of the tree. The parser has another measure under the same bound: it reads a row
of operands in a loop, which uses up no nesting, and the tree it makes of the row leans to the left
and has a level for each operand. So a text can be an expression for the parser and still be too
deep for the resolver.
-/

namespace Lox

mutual

/-- The number of levels of an expression. -/
def Expr.height : Expr → Nat
  | .literal _ | .var _ | .self _ | .inherited _ _ => 1
  | .group inner | .unary _ inner | .property inner _ | .assign _ inner => inner.height + 1
  | .binary left _ right | .logical left _ right => max left.height right.height + 1
  | .setProperty object _ value => max value.height object.height + 1
  | .call callee _ arguments => max callee.height (Expr.heightRow arguments) + 1

/-- The number of levels of the highest expression in a row. -/
def Expr.heightRow : List Expr → Nat
  | [] => 0
  | e :: es => max e.height (Expr.heightRow es)

end

namespace Scoping

variable {α β : Type}

/-- Whether a walk gets through does not depend on the state in which it starts, but on some fact
alone. -/
def Hinges (p : Resolve α) (fits : Prop) : Prop :=
  ∀ s, (fits ∧ ∃ a s', p s = .ok a s') ∨ (¬ fits ∧ ∃ s', p s = .error .tooDeep s')

namespace Hinges

variable {p : Resolve α} {fits fits' : Prop}

theorem iff (h : Hinges p fits) (heq : fits ↔ fits') : Hinges p fits' := by
  rw [propext heq] at h
  exact h

theorem pure (a : α) : Hinges (Pure.pure a) True := fun s ↦ .inl ⟨trivial, a, s, rfl⟩

/-- What comes first decides, and then what follows. -/
theorem bind {f : α → Resolve β} (h : Hinges p fits) (h' : ∀ a, Hinges (f a) fits') :
    Hinges (p >>= f) (fits ∧ fits') := by
  intro s
  rcases h s with ⟨hfits, a, s₁, hp⟩ | ⟨hfits, s₁, hp⟩
  · rw [bind_of_ok hp]
    exact (h' a s₁).imp (And.imp_left (And.intro hfits)) (And.imp_left (mt And.right))
  · rw [bind_of_error hp]
    exact .inr ⟨mt And.left hfits, s₁, rfl⟩

/-- What follows always gets through. -/
theorem andThen {f : α → Resolve β} (h : Hinges p fits) (h' : ∀ a, Hinges (f a) True) :
    Hinges (p >>= f) fits := (h.bind h').iff (and_iff_left trivial)

theorem map {f : α → β} (h : Hinges p fits) : Hinges (f <$> p) fits := by
  rw [← bind_pure_comp]
  exact h.andThen fun a ↦ pure (f a)

theorem locate (use : Use) (r : Reference) : Hinges (Scoping.locate use r) True := by
  intro s
  refine .inl ⟨trivial, ?_⟩
  rw [Scoping.locate, get_bind]
  cases distance? r.name.lexeme s.scopes <;> exact ⟨_, _, rfl⟩

theorem read (r : Reference) : Hinges (Scoping.read r) True := by
  intro s
  rw [Scoping.read, get_bind]
  split
  · exact locate .variable r _
  · exact locate .variable r s

end Hinges

/-- An expression gets through if it is not higher than the bound on nested calls. -/
theorem hinges_expression : ∀ (nesting : Nat) (e : Expr),
    Hinges (expression nesting e) (e.height ≤ nesting)
  | 0, e => fun s ↦ .inr ⟨by cases e <;> simp [Expr.height], s, rfl⟩
  | nesting + 1, e => by
    have ih := hinges_expression nesting
    cases e with
    | literal value => exact (Hinges.pure _).iff (by simp [Expr.height])
    | var target => exact (Hinges.read _).map.iff (by simp [Expr.height])
    | self keyword => exact (Hinges.locate _ _).map.iff (by simp [Expr.height])
    | inherited keyword method =>
      have hfits : True ↔ (Expr.inherited keyword method).height ≤ nesting + 1 := by
        simp [Expr.height]
      intro s
      rw [expression, get_bind]
      split
      · exact ((Hinges.locate _ _).andThen fun _ ↦ .pure _).iff hfits s
      · exact (Hinges.pure _).iff hfits s
    | group inner | unary operator inner | property inner name =>
      exact (ih inner).map.iff (by simp [Expr.height])
    | binary left operator right | logical left operator right =>
      exact ((ih left).bind fun _ ↦ (ih right).andThen fun _ ↦ .pure _).iff
        (by rw [Expr.height]; omega)
    | assign target value =>
      exact ((ih value).andThen fun _ ↦ (Hinges.locate _ _).andThen fun _ ↦ .pure _).iff
        (by simp [Expr.height])
    | setProperty object name value =>
      exact ((ih value).bind fun _ ↦ (ih object).andThen fun _ ↦ .pure _).iff
        (by rw [Expr.height]; omega)
    | call callee paren arguments =>
      have hrow : ∀ es : List Expr,
          Hinges (es.mapM (expression nesting)) (Expr.heightRow es ≤ nesting) := by
        intro es
        induction es with
        | nil => exact (Hinges.pure _).iff (by simp [Expr.heightRow])
        | cons e es hes =>
          rw [List.mapM_cons]
          exact ((ih e).bind fun _ ↦ hes.andThen fun _ ↦ .pure _).iff
            (by rw [Expr.heightRow]; omega)
      exact ((ih callee).bind fun _ ↦ (hrow arguments).andThen fun _ ↦ .pure _).iff
        (by rw [Expr.height]; omega)

end Scoping

/-- A single expression is resolved without complaints, or it is higher than the bound. -/
theorem resolveExpression_cases (nesting : Nat) (e : Expr) :
    (e.height ≤ nesting ∧ ∃ findings,
      resolveExpression nesting e = ⟨some (e.located []), [], findings⟩) ∨
    (nesting < e.height ∧ (resolveExpression nesting e).result = none ∧
      (resolveExpression nesting e).errors = []) := by
  have henough : resolveExpression (max nesting (sizeOf e)) e
      = ⟨some (e.located []), [], (e.mentions [] none).filterMap Mention.finding?⟩ := by
    rw [resolveExpression, Scoping.run,
      Scoping.expression_eq (Nat.le_max_right _ _) .start]
    simp [Scoping.State.noting, Expr.complaints_eq_nil]
  have hdeeper := Scoping.run_of_deepens
    (Scoping.deepens_expression (Nat.le_max_left nesting (sizeOf e)) e)
  change (resolveExpression nesting e).result = none ∧ (resolveExpression nesting e).errors <+:
    (resolveExpression (max nesting (sizeOf e)) e).errors ∨ resolveExpression nesting e
      = resolveExpression (max nesting (sizeOf e)) e at hdeeper
  rw [henough] at hdeeper
  rcases Scoping.hinges_expression nesting e ⟨[], .noClass, [], []⟩ with
    ⟨hfits, a, s', hok⟩ | ⟨hhigh, s', hdeep⟩
  · refine .inl ⟨hfits, _, hdeeper.resolve_left ?_⟩
    rintro ⟨hnone, -⟩
    rw [resolveExpression, Scoping.run, hok] at hnone
    cases hnone
  · have hnone : (resolveExpression nesting e).result = none := by
      rw [resolveExpression, Scoping.run, hdeep]
    refine .inr ⟨Nat.lt_of_not_le hhigh, hnone, ?_⟩
    rcases hdeeper with ⟨-, hprefix⟩ | hsame
    · exact List.prefix_nil.mp hprefix
    · rw [hsame]

/-- A text that is an expression for the parser is compiled without complaints, or it is higher than
the bound on nesting, which is the only complaint then. -/
theorem compileExpression_cases {nesting : Nat} {source : String}
    (h : isExpression nesting source = true) :
    ∃ e, (Analysis.parse (parseExpression nesting) source).result = some e ∧
      ((e.height ≤ nesting ∧ ∃ findings, compileExpression nesting source
          = ⟨scan source, some (e.located []), ⟨.resolution, #[]⟩, findings, false⟩) ∨
        (nesting < e.height ∧ ∃ findings, compileExpression nesting source
          = ⟨scan source, some e, ⟨.resolution, #[.atLine .resolution (scan source).firstToken.line
              "Too much nesting."]⟩, findings, true⟩)) := by
  rw [isExpression, Bool.and_eq_true, Bool.not_eq_true'] at h
  obtain ⟨e, he⟩ := Option.isSome_iff_exists.mp h.1
  have hparse := Analysis.parse_clean h.2 he
  have hscan := (Analysis.scan_parse_clean h.2).1
  refine ⟨e, he, (resolveExpression_cases nesting e).imp ?_ ?_⟩
  · rintro ⟨hfits, findings, hresolve⟩
    exact ⟨hfits, findings, Analysis.eq_of_clean hscan hparse hresolve⟩
  · rintro ⟨hhigh, hresult, herrors⟩
    have hresolved : Analysis.resolve (resolveExpression nesting)
        ⟨scan source, some e, ⟨.syntactic, #[]⟩, [], false⟩
        = ⟨scan source, some e, ⟨.resolution, #[.atLine .resolution (scan source).firstToken.line
          "Too much nesting."]⟩, (resolveExpression nesting e).findings, true⟩ := by
      rw [Analysis.resolve]
      simp only [hresult, herrors]
      rfl
    refine ⟨hhigh, (resolveExpression nesting e).findings, ?_⟩
    rw [compileExpression, Analysis.parse_eq_of_clean hscan hparse]
    exact hresolved

end Lox
