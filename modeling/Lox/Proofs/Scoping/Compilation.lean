import Lox.Analysis
import Lox.Proofs.Scoping.Resolution.Statement
import Lox.Proofs.Syntax.Acceptance.Statement

/-!
# Texts without errors

The analysis of a source text for which nothing is reported went through all of its stages, and what
comes out is resolved: its distances are right, for whatever names are excused that are assigned to
in their own initializers.
-/

namespace Lox

namespace Diagnostics

theorem toList_reportTokens {ε : Type} (message : ε → String) (ds : Diagnostics)
    (errors : List (Token × ε)) : (ds.reportTokens message errors).items.toList
      = ds.items.toList ++ errors.map fun e ↦ .atToken ds.stage e.1 (message e.2) := by
  induction errors generalizing ds with
  | nil => exact (List.append_nil _).symm
  | cons e errors ih =>
    rw [reportTokens, List.foldl_cons, ← reportTokens, ih, toList_reportToken, List.map_cons,
      List.append_assoc, List.singleton_append]
    rfl

theorem hasErrors_eq_false_iff {ds : Diagnostics} :
    ds.hasErrors = false ↔ ds.items.toList = [] := by
  simp [hasErrors]

/-- Reporting takes nothing back. -/
theorem reportTokens_clean {ε : Type} {message : ε → String} {ds : Diagnostics}
    {errors : List (Token × ε)} (h : (ds.reportTokens message errors).hasErrors = false) :
    ds.hasErrors = false ∧ errors = [] := by
  rw [hasErrors_eq_false_iff, toList_reportTokens, List.append_eq_nil_iff] at h
  exact ⟨hasErrors_eq_false_iff.mpr h.1, List.map_eq_nil_iff.mp h.2⟩

end Diagnostics

namespace Analysis

variable {α : Type} {a : Analysis α}

theorem hasErrors_reportNesting : a.reportNesting.hasErrors = true := by
  simp [reportNesting, hasErrors, Diagnostics.hasErrors, Diagnostics.reportLine]

/-- A text with a result and without errors was parsed without complaints. -/
theorem parse_clean {parser : List Token → Token → Parsed α} {source : String} {parsed : α}
    (hclean : (parse parser source).hasErrors = false)
    (hresult : (parse parser source).result = some parsed) :
    parser (Lox.scan source).tokens (Lox.scan source).finish = ⟨.ok parsed, []⟩ := by
  rw [parse] at hclean hresult
  cases hparser : parser (Lox.scan source).tokens (Lox.scan source).finish with
  | mk result errors =>
    rw [hparser] at hclean hresult
    match result with
    | .ok b =>
      cases hresult
      obtain rfl : errors = [] := (Diagnostics.reportTokens_clean hclean).2
      rfl
    | .error .fault => cases hresult
    | .error .tooDeep => cases hresult

/-- What comes out of the analysis of a text without errors. -/
theorem resolveClean_clean {resolver : α → Resolved α} {result : α}
    (hclean : (a.resolveClean resolver).hasErrors = false)
    (hresult : (a.resolveClean resolver).result = some result) :
    a.hasErrors = false ∧ ∃ parsed, a.result = some parsed ∧
      (resolver parsed).result = some result ∧ (resolver parsed).errors = [] := by
  rw [resolveClean] at hclean hresult
  cases herrors : a.hasErrors with
  | true =>
    rw [herrors, if_pos rfl] at hclean
    rw [hclean] at herrors
    cases herrors
  | false =>
    rw [herrors, if_neg Bool.false_ne_true, resolve] at hclean hresult
    refine ⟨rfl, ?_⟩
    cases hparsed : a.result with
    | none =>
      rw [hparsed] at hresult
      rw [hparsed] at hresult
      cases hresult
    | some parsed =>
      rw [hparsed] at hclean hresult
      cases hresolved : (resolver parsed).result with
      | none =>
        simp only [hresolved] at hclean
        rw [hasErrors_reportNesting] at hclean
        cases hclean
      | some result' =>
        simp only [hresolved] at hclean hresult
        exact ⟨parsed, rfl, hresolved.trans hresult, (Diagnostics.reportTokens_clean hclean).2⟩

end Analysis

namespace Scoping

variable {α : Type} {p : Resolve α} {a : α}

theorem run_eq_some (h : (run p).result = some a) (herrors : (run p).errors = []) :
    ∃ s', p ⟨[], .noClass, [], []⟩ = .ok a s' ∧ s'.errors = [] := by
  rw [run] at h herrors
  cases hp : p ⟨[], .noClass, [], []⟩ with
  | ok b s' =>
    rw [hp] at h herrors
    cases h
    exact ⟨s', rfl, List.reverse_eq_nil_iff.mp herrors⟩
  | error e s' =>
    rw [hp] at h
    cases h

/-- The walk starts outside of all scopes. -/
theorem start_at : State.At ⟨[], .noClass, [], []⟩ [] none :=
  ⟨.nil, by simp [Context.inherits], fun _ h ↦ by cases h⟩

theorem genuine_of_spells {source : String} {glyphs : List Glyph}
    (h : Spells glyphs (scan source).tokens) : Genuine glyphs :=
  fun _ ht ↦ genuine_of_mem_scan (h.mem ht)

end Scoping

variable {nesting : Nat} {source : String} {excused : String → Prop}

/-- A program about whose names nothing is complained is resolved, whether it was parsed without
complaints or not. -/
theorem rowScoped_of_resolveProgram {parsed program : List Stmt} {inside : Bool}
    (hshaped : ∀ st ∈ parsed, st.Shaped inside)
    (hresult : (resolveProgram nesting parsed).result = some program)
    (herrors : (resolveProgram nesting parsed).errors = [])
    (hexcused : ∀ x, Stmt.anySelfAssigns x false program = true → excused x) :
    Stmt.RowScoped excused inside [] program := by
  obtain ⟨s', hwalk, hs'⟩ := Scoping.run_eq_some hresult herrors
  have hbody := Scoping.resolves_body
    (Scoping.FillsAll.of_nesting excused nesting).statement parsed _ program s' hwalk hs'
  exact (hbody.2 [] inside Scoping.start_at trivial hshaped hexcused).2

/-- A program without errors is resolved. -/
theorem rowScoped_of_compile (hclean : (compile nesting source).hasErrors = false)
    (hexcused : ∀ x, Stmt.anySelfAssigns x false (compile nesting source).program = true →
      excused x) : Stmt.RowScoped excused false [] (compile nesting source).program := by
  cases hresult : (compile nesting source).result with
  | none =>
    rw [Analysis.program, hresult]
    exact .nil
  | some program =>
    rw [Analysis.program, hresult] at hexcused ⊢
    obtain ⟨hparse, parsed, hparsed, hresolved, herrors⟩ :=
      Analysis.resolveClean_clean hclean hresult
    obtain ⟨hwf, hspells⟩ := wellFormed_of_parseProgram rfl (Analysis.parse_clean hparse hparsed)
    rw [Stmt.spellings_eq_flatten] at hspells
    refine rowScoped_of_resolveProgram (fun st hst ↦ (hwf st hst).shaped fun t ht ↦ ?_) hresolved
      herrors hexcused
    exact Scoping.genuine_of_spells hspells t
      (List.mem_flatten.mpr ⟨_, List.mem_map_of_mem hst, ht⟩)

/-- An expression without errors is resolved. Nothing is declared in it. -/
theorem scoped_of_compileExpression {e : Expr}
    (hclean : (compileExpression nesting source).hasErrors = false)
    (hresult : (compileExpression nesting source).result = some e) : e.Scoped excused [] none := by
  obtain ⟨hparse, parsed, hparsed, hresolved, herrors⟩ := Analysis.resolveClean_clean hclean hresult
  obtain ⟨hwf, hspells⟩ := wellFormed_of_parseExpression rfl (Analysis.parse_clean hparse hparsed)
  obtain ⟨s', hwalk, hs'⟩ := Scoping.run_eq_some hresolved herrors
  obtain ⟨-, -, hfills⟩ : _ ∧ Scoping.Fills excused _ parsed e s' :=
    Scoping.resolves_expression nesting parsed _ e s' hwalk hs'
  exact hfills [] none Scoping.start_at (hwf.shaped (Scoping.genuine_of_spells hspells))
    fun _ h ↦ by cases h

end Lox
