import Lox.Proofs.Lines.Lexing
import Lox.Proofs.Lines.Parsing
import Lox.Proofs.Recasting.Resolution
import Lox.Proofs.Scoping.Balance
import Lox.Proofs.Scoping.Compilation
import Lox.Proofs.Syntax.Acceptance.Program

/-!
# Compiling two texts as one

A text without errors passes through three stages without a complaint. Each stage does with two
texts that are joined by a line feed what it does with each of them: the tokens, the statements and
the distances of the second text come behind those of the first, and only the lines are others.
-/

namespace Lox

variable {nesting : Nat} {source first second : String}

theorem Diagnostics.reportLines_clean {ε : Type} {message : ε → String} {ds : Diagnostics}
    {errors : List (Int × ε)} (h : (ds.reportLines message errors).hasErrors = false) :
    ds.hasErrors = false ∧ errors = [] := by
  induction errors generalizing ds with
  | nil => exact ⟨h, rfl⟩
  | cons e errors ih =>
    have hfirst := (ih h).1
    rw [hasErrors_eq_false_iff, toList_reportLine] at hfirst
    exact absurd hfirst (by simp)

namespace Analysis

variable {α : Type} {a : Analysis α}

/-- What lexing and parsing make of a text without errors. The parser may have given up. -/
theorem scan_parse_clean {parser : List Token → Token → Parsed α}
    (h : (parse parser source).hasErrors = false) :
    (Lox.scan source).errors = [] ∧
      (parser (Lox.scan source).tokens (Lox.scan source).finish).errors = [] ∧
      (parser (Lox.scan source).tokens (Lox.scan source).finish).result ≠ .error .tooDeep := by
  cases hparser : parser (Lox.scan source).tokens (Lox.scan source).finish with
  | mk result errors =>
    rw [parse, hparser] at h
    -- Whatever the parser returns, all that was reported is in the diagnostics.
    have hreported : ∀ diagnostics : Diagnostics, diagnostics.hasErrors = false →
        diagnostics = ((Diagnostics.empty.reportLines LexicalError.message
          (Lox.scan source).errors).enter .syntactic).reportTokens SyntaxError.message errors →
        (Lox.scan source).errors = [] ∧ errors = [] := by
      rintro diagnostics hnone rfl
      obtain ⟨hlexical, herrors⟩ := Diagnostics.reportTokens_clean hnone
      exact ⟨(Diagnostics.reportLines_clean hlexical).2, herrors⟩
    cases result with
    | ok _ =>
      obtain ⟨hlexical, herrors⟩ := hreported _ h rfl
      exact ⟨hlexical, herrors, fun hresult ↦ by cases hresult⟩
    | error abort =>
      cases abort with
      | fault =>
        obtain ⟨hlexical, herrors⟩ := hreported _ h rfl
        exact ⟨hlexical, herrors, fun hresult ↦ by cases hresult⟩
      | tooDeep | exhausted =>
        rw [hasErrors_reportNesting] at h
        cases h

/-- What comes out of resolving a text without errors. -/
theorem resolve_clean {resolver : α → Resolved α}
    (h : (a.resolveClean resolver).hasErrors = false) :
    a.hasErrors = false ∧ ∀ parsed, a.result = some parsed →
      ∃ result, (a.resolveClean resolver).result = some result := by
  rw [resolveClean] at h ⊢
  cases herrors : a.hasErrors with
  | true =>
    rw [herrors, if_pos rfl, herrors] at h
    cases h
  | false =>
    rw [herrors, if_neg Bool.false_ne_true, resolve] at h
    refine ⟨rfl, fun parsed hparsed ↦ ?_⟩
    rw [if_neg Bool.false_ne_true, resolve]
    rw [hparsed] at h ⊢
    cases hresolved : (resolver parsed).result with
    | none =>
      simp only [hresolved] at h
      rw [hasErrors_reportNesting] at h
      cases h
    | some result => exact ⟨result, by simp only [hresolved]⟩

/-- A text that is lexed and parsed without complaints. -/
theorem parse_eq_of_clean {parser : List Token → Token → Parsed α} {parsed : α}
    (hscan : (Lox.scan source).errors = [])
    (hparse : parser (Lox.scan source).tokens (Lox.scan source).finish = ⟨.ok parsed, []⟩) :
    parse parser source = ⟨Lox.scan source, some parsed, ⟨.syntactic, #[]⟩, [], false⟩ := by
  rw [parse, hparse, hscan]
  rfl

/-- What comes of a text that none of the stages complains about. -/
theorem eq_of_clean {parser : List Token → Token → Parsed α} {resolver : α → Resolved α}
    {parsed resolved : α} {findings : List Scoping.Finding}
    (hscan : (Lox.scan source).errors = [])
    (hparse : parser (Lox.scan source).tokens (Lox.scan source).finish = ⟨.ok parsed, []⟩)
    (hresolve : resolver parsed = ⟨some resolved, [], findings⟩) :
    (parse parser source).resolveClean resolver
      = ⟨Lox.scan source, some resolved, ⟨.resolution, #[]⟩, findings, false⟩ := by
  have hresolved : resolve resolver ⟨Lox.scan source, some parsed, ⟨.syntactic, #[]⟩, [], false⟩
      = ⟨Lox.scan source, some resolved, ⟨.resolution, #[]⟩, findings, false⟩ := by
    rw [resolve]
    dsimp only
    rw [hresolve]
    rfl
  rw [parse_eq_of_clean hscan hparse]
  exact hresolved

/-- A text that is not nested too deeply gets through parsing, if only its depth might prevent
that, and through resolving. -/
theorem of_not_tooDeep {parser : List Token → Token → Parsed α} {resolver : α → Resolved α}
    {parsed : α} (hscan : (Lox.scan source).errors = [])
    (hparse : (parser (Lox.scan source).tokens (Lox.scan source).finish).result = .error .tooDeep ∨
      parser (Lox.scan source).tokens (Lox.scan source).finish = ⟨.ok parsed, []⟩)
    (hdeep : ((parse parser source).resolveClean resolver).tooDeep = false) :
    parser (Lox.scan source).tokens (Lox.scan source).finish = ⟨.ok parsed, []⟩ ∧
      (resolver parsed).result.isSome = true := by
  rcases hparse with hparse | hparse
  · have herrors : (parse parser source).hasErrors = true := by
      rw [parse, hparse]
      exact hasErrors_reportNesting
    rw [resolveClean, if_pos herrors, parse, hparse] at hdeep
    cases hdeep
  · refine ⟨hparse, ?_⟩
    rw [parse_eq_of_clean hscan hparse] at hdeep
    change (resolve resolver ⟨Lox.scan source, some parsed, ⟨.syntactic, #[]⟩, [], false⟩).tooDeep
      = false at hdeep
    rw [resolve] at hdeep
    cases hresolved : (resolver parsed).result with
    | some _ => rfl
    | none =>
      simp only [hresolved] at hdeep
      cases hdeep

end Analysis

/-- What the stages make of a text that none of them complains about. -/
structure Compiles (nesting : Nat) (source : String) (parsed program : List Stmt)
    (findings : List Scoping.Finding) : Prop where
  scans : (scan source).errors = []
  parses : parseProgram nesting (scan source).tokens (scan source).finish = ⟨.ok parsed, []⟩
  resolves : resolveProgram nesting parsed = ⟨some program, [], findings⟩

/-- Two programs that are resolved without complaints are resolved as one, the second of them on
other lines. -/
theorem resolveProgram_joined {parsed parsed' program program' : List Stmt}
    {findings findings' : List Scoping.Finding}
    (h : resolveProgram nesting parsed = ⟨some program, [], findings⟩)
    (h' : resolveProgram nesting parsed' = ⟨some program', [], findings'⟩) (f : Int → Int) :
    resolveProgram nesting (parsed ++ parsed'.map (Stmt.moved f))
      = ⟨some (program ++ program'.map (Stmt.moved f)), [],
        findings ++ findings'.map (Scoping.Finding.recast (.lines f))⟩ := by
  rw [Scoping.resolveProgram_eq_iff] at h h' ⊢
  have hmoves : Scoping.Recasts (.lines f) [] findings.reverse (List.map (Stmt.moved f))
      (parsed'.mapM (Scoping.statement nesting))
      ((parsed'.map (Stmt.moved f)).mapM (Scoping.statement nesting)) :=
    .mapM fun st _ ↦ (Scoping.RecastsAll.of_nesting nesting).statement st
  have hsecond := hmoves.of_ok h'
  rw [List.mapM_append, bind_of_ok h]
  refine (bind_of_ok hsecond).trans ?_
  rw [List.reverse_append, ← List.map_reverse]
  rfl

namespace Compiles

variable {parsed parsed' program program' : List Stmt} {findings findings' : List Scoping.Finding}

theorem compile_eq (h : Compiles nesting source parsed program findings) :
    compile nesting source = ⟨scan source, some program, ⟨.resolution, #[]⟩, findings, false⟩ :=
  Analysis.eq_of_clean h.scans h.parses h.resolves

/-- Without complaints a program is parsed, unless nested calls run out. -/
theorem parse_silent (nesting : Nat) (tokens : List Token) {finish : Token}
    (hfinish : finish.kind = .eof) (h : (parseProgram nesting tokens finish).errors = []) :
    (parseProgram nesting tokens finish).result = .error .tooDeep ∨
      ∃ parsed, parseProgram nesting tokens finish = ⟨.ok parsed, []⟩ := by
  cases hresult : (parseProgram nesting tokens finish).result with
  | error abort =>
    exact .inl (congrArg _ (Parser.tooDeep_of_silent
      (p := fun input ↦ Parser.program input nesting) (progress_program hfinish)
      (consumes_program hfinish _) h hresult))
  | ok parsed => exact .inr ⟨parsed, by rw [← hresult, ← h]⟩

/-- A text without errors passes all stages. -/
theorem of_clean (hclean : (compile nesting source).hasErrors = false) :
    ∃ parsed findings,
      Compiles nesting source parsed (compile nesting source).program findings := by
  obtain ⟨hparse, hresolve⟩ := Analysis.resolve_clean hclean
  obtain ⟨hscan, hsilent, hdeep⟩ := Analysis.scan_parse_clean hparse
  obtain ⟨parsed, hparsed⟩ := (parse_silent nesting _ (congrArg Token.kind (finish_scan source))
    hsilent).resolve_left hdeep
  have hresult : (Analysis.parse (parseProgram nesting) source).result = some parsed := by
    rw [Analysis.parse, hparsed]
  obtain ⟨program, hprogram⟩ := hresolve parsed hresult
  obtain ⟨-, parsed', hparsed', hresolved, herrors⟩ := Analysis.resolveClean_clean hclean hprogram
  cases hresult.symm.trans hparsed'
  refine ⟨parsed, (resolveProgram nesting parsed).findings, hscan, hparsed, ?_⟩
  rw [Analysis.program, compile, hprogram, ← herrors, Option.getD_some, ← hresolved]

/-- Two texts that pass all stages pass them as one. -/
theorem joined (h : Compiles nesting first parsed program findings)
    (h' : Compiles nesting second parsed' program' findings') :
    Compiles nesting (first ++ "\n" ++ second)
      (parsed ++ parsed'.map (Stmt.moved (· + height first)))
      (program ++ program'.map (Stmt.moved (· + height first)))
      (findings ++ findings'.map (Scoping.Finding.recast (.lines (· + height first)))) := by
  have hscan := scan_joined h.scans second
  refine ⟨?_, ?_, ?_⟩
  · rw [hscan, h'.scans]
    rfl
  · rw [hscan]
    exact parseProgram_joined (congrArg Token.kind (finish_scan first))
      (congrArg Token.kind (finish_scan second)) h.parses h'.parses _ _
  · exact resolveProgram_joined h.resolves h'.resolves _

end Compiles

end Lox
