import Lox.Proofs.Lexical.Safety
import Lox.Proofs.Lines.Compiling
import Lox.Proofs.Scoping.Depth
import Lox.Proofs.Sessions.Budget
import Lox.Proofs.Sessions.Outputs
import Lox.Proofs.Syntax.Nesting
import Lox.Proofs.Tasks.Depth

/-!
# The bound on nested calls in a session

The parser, the resolver and the evaluator make nested calls, and the host says how many. The bound
can be seen in one way only, which is that something is said about it: a diagnostic, if a text is
nested too deeply for the parser or the resolver, and an issue, if calls are nested too deeply while
it runs. Where nothing is said, a larger bound makes no difference at all.

The three stages are compared under two bounds by `CutShort` and `Truncates`, each for what it
gathers: complaints in the first two, lines in the third. What is left to do here is to follow what
was gathered into the answer to a command.
-/

namespace Lox

/-! ## What is said about nesting -/

namespace Text

variable {l : List Char} {s t : String}

theorem isPrefix_append (h : l <+: s.toList) (t : String) : l <+: (s ++ t).toList := by
  rw [String.toList_append]
  exact h.trans (List.prefix_append _ _)

/-- Two texts are different if only one of them begins in a certain way. -/
theorem ne_of_isPrefix (hs : l <+: s.toList) (ht : ¬ l <+: t.toList) : s ≠ t := by
  rintro rfl
  exact ht hs

end Text

theorem LexicalError.message_ne (e : LexicalError) : e.message ≠ "Too much nesting." := by
  cases e with
  | unexpectedCharacter => exact Text.ne_of_isPrefix (l := ['U']) ⟨_, rfl⟩ (by decide +kernel)
  | unterminatedString => exact Text.ne_of_isPrefix (l := ['U']) ⟨_, rfl⟩ (by decide +kernel)

theorem SyntaxError.message_ne (e : SyntaxError) : e.message ≠ "Too much nesting." := by
  cases e with
  | expected what =>
    have hfirst : ['E'] <+: "Expect ".toList := ⟨_, rfl⟩
    exact Text.ne_of_isPrefix (Text.isPrefix_append (Text.isPrefix_append hfirst what) _)
      (by decide +kernel)
  | tooMany what =>
    have hfirst : ['C'] <+: "Can't have more than ".toList := ⟨_, rfl⟩
    refine Text.ne_of_isPrefix (Text.isPrefix_append (Text.isPrefix_append
      (Text.isPrefix_append (Text.isPrefix_append hfirst (toString maxArguments)) _) what) _) ?_
    decide +kernel
  | topLevelReturn => exact Text.ne_of_isPrefix (l := ['C']) ⟨_, rfl⟩ (by decide +kernel)
  | invalidTarget => exact Text.ne_of_isPrefix (l := ['I']) ⟨_, rfl⟩ (by decide +kernel)

theorem ScopeError.message_ne (e : ScopeError) : e.message ≠ "Too much nesting." := by
  cases e with
  | redeclared => exact Text.ne_of_isPrefix (l := ['A']) ⟨_, rfl⟩ (by decide +kernel)
  | ownInitializer => exact Text.ne_of_isPrefix (l := ['C']) ⟨_, rfl⟩ (by decide +kernel)
  | selfInheritance => exact Text.ne_of_isPrefix (l := ['A']) ⟨_, rfl⟩ (by decide +kernel)

/-- No other issue has the message of an overflow. -/
theorem Issue.Cause.eq_stackOverflow {cause : Issue.Cause} (h : cause.message = "Stack overflow.") :
    cause = .stackOverflow := by
  have hother : ∀ l : List Char, l <+: cause.message.toList → ¬ l <+: "Stack overflow.".toList →
      cause = .stackOverflow := fun l hl hnot ↦ absurd h (Text.ne_of_isPrefix hl hnot)
  cases cause with
  | stackOverflow => rfl
  | undefinedVariable name =>
    have hfirst : ['U'] <+: "Undefined variable '".toList := ⟨_, rfl⟩
    exact hother _ (Text.isPrefix_append (Text.isPrefix_append hfirst name) _) (by decide +kernel)
  | undefinedProperty name =>
    have hfirst : ['U'] <+: "Undefined property '".toList := ⟨_, rfl⟩
    exact hother _ (Text.isPrefix_append (Text.isPrefix_append hfirst name) _) (by decide +kernel)
  | unsupportedUnary lexeme =>
    have hfirst : ['U'] <+: "Unsupported unary operator '".toList := ⟨_, rfl⟩
    exact hother _ (Text.isPrefix_append (Text.isPrefix_append hfirst lexeme) _)
      (by decide +kernel)
  | unsupportedBinary lexeme =>
    have hfirst : ['U'] <+: "Unsupported binary operator '".toList := ⟨_, rfl⟩
    exact hother _ (Text.isPrefix_append (Text.isPrefix_append hfirst lexeme) _)
      (by decide +kernel)
  | wrongArity callee expected given =>
    have hfirst : ['\''] <+: "'".toList := ⟨_, rfl⟩
    refine hother _ (Text.isPrefix_append (Text.isPrefix_append (Text.isPrefix_append
      (Text.isPrefix_append (Text.isPrefix_append (Text.isPrefix_append hfirst callee) _) _) _) _)
      _) (by decide +kernel)
  | stepLimit limit =>
    have hfirst : ['S', 't', 'e'] <+: "Step limit of ".toList := ⟨_, rfl⟩
    exact hother _ (Text.isPrefix_append (Text.isPrefix_append hfirst (toString limit)) _)
      (by decide +kernel)
  | superclassNotClass => exact hother ['S', 'u'] ⟨_, rfl⟩ (by decide +kernel)
  | noProperties | noFields | operandNotNumber | operandsNotNumbers | operandsNotAddable =>
    exact hother ['O'] ⟨_, rfl⟩ (by decide +kernel)
  | notCallable | noSuperclass => exact hother ['C'] ⟨_, rfl⟩ (by decide +kernel)

/-! ## What the stages report -/

namespace Diagnostics

variable {ε : Type}

theorem toList_reportLines (message : ε → String) (ds : Diagnostics) (errors : List (Int × ε)) :
    (ds.reportLines message errors).items.toList
      = ds.items.toList ++ errors.map fun e ↦ .atLine ds.stage e.1 (message e.2) := by
  induction errors generalizing ds with
  | nil => exact (List.append_nil _).symm
  | cons e errors ih =>
    rw [reportLines, List.foldl_cons, ← reportLines, ih, toList_reportLine, List.map_cons,
      List.append_assoc, List.singleton_append]
    rfl

theorem stage_reportTokens (message : ε → String) (ds : Diagnostics) (errors : List (Token × ε)) :
    (ds.reportTokens message errors).stage = ds.stage := by
  induction errors generalizing ds with
  | nil => rfl
  | cons e errors ih => exact ih (ds.reportToken e.1 (message e.2))

end Diagnostics

namespace Analysis

variable {α : Type}

/-- What lexing and parsing report. -/
def lexedAndParsed (source : String) (errors : List (Token × SyntaxError)) : Diagnostics :=
  ((Diagnostics.empty.reportLines LexicalError.message (Lox.scan source).errors).enter
    .syntactic).reportTokens SyntaxError.message errors

theorem toList_lexedAndParsed (source : String) (errors : List (Token × SyntaxError)) :
    (lexedAndParsed source errors).items.toList
      = ((Lox.scan source).errors.map fun e ↦ .atLine .lexical e.1 e.2.message)
        ++ errors.map fun e ↦ .atToken .syntactic e.1 e.2.message := by
  rw [lexedAndParsed, Diagnostics.toList_reportTokens, Diagnostics.enter,
    Diagnostics.toList_reportLines]
  rfl

theorem message_ne_of_mem_lexedAndParsed {source : String} {errors : List (Token × SyntaxError)}
    {d : Diagnostic} (hd : d ∈ (lexedAndParsed source errors).items.toList) :
    d.message ≠ "Too much nesting." := by
  rw [toList_lexedAndParsed] at hd
  rcases List.mem_append.mp hd with hd | hd
  · obtain ⟨e, -, rfl⟩ := List.mem_map.mp hd
    exact e.2.message_ne
  · obtain ⟨e, -, rfl⟩ := List.mem_map.mp hd
    exact e.2.message_ne

theorem message_ne_of_mem_resolved {ds : Diagnostics} {errors : List (Token × ScopeError)}
    (hds : ∀ d ∈ ds.items.toList, d.message ≠ "Too much nesting.") {d : Diagnostic}
    (hd : d ∈ (ds.reportTokens ScopeError.message errors).items.toList) :
    d.message ≠ "Too much nesting." := by
  rw [Diagnostics.toList_reportTokens] at hd
  rcases List.mem_append.mp hd with hd | hd
  · exact hds d hd
  · obtain ⟨e, -, rfl⟩ := List.mem_map.mp hd
    exact e.2.message_ne

theorem stage_lexedAndParsed (source : String) (errors : List (Token × SyntaxError)) :
    (lexedAndParsed source errors).stage = .syntactic := Diagnostics.stage_reportTokens _ _ errors

theorem parse_of_ok {parser : List Token → Token → Parsed α} {source : String} {a : α}
    (h : (parser (Lox.scan source).tokens (Lox.scan source).finish).result = .ok a) :
    parse parser source = ⟨Lox.scan source, some a, lexedAndParsed source
      (parser (Lox.scan source).tokens (Lox.scan source).finish).errors, [], false⟩ := by
  rw [parse, h]
  rfl

theorem parse_of_tooDeep {parser : List Token → Token → Parsed α} {source : String}
    (h : (parser (Lox.scan source).tokens (Lox.scan source).finish).result = .error .tooDeep) :
    parse parser source = reportNesting ⟨Lox.scan source, none, lexedAndParsed source
      (parser (Lox.scan source).tokens (Lox.scan source).finish).errors, [], false⟩ := by
  rw [parse, h]
  rfl

theorem toList_reportNesting (a : Analysis α) : a.reportNesting.diagnostics.items.toList
    = a.diagnostics.items.toList
      ++ [.atLine a.diagnostics.stage a.scan.firstToken.line "Too much nesting."] :=
  Diagnostics.toList_reportLine _ _ _

theorem lexedAndParsed_isPrefix (parser : List Token → Token → Parsed α) (source : String) :
    (lexedAndParsed source (parser (Lox.scan source).tokens
        (Lox.scan source).finish).errors).items.toList
      <+: (parse parser source).diagnostics.items.toList := by
  rw [parse]
  cases (parser (Lox.scan source).tokens (Lox.scan source).finish).result with
  | ok a => exact List.prefix_rfl
  | error abort =>
    cases abort with
    | fault => exact List.prefix_rfl
    | tooDeep | exhausted => exact toList_reportNesting _ ▸ List.prefix_append _ _

theorem resolveClean_of_clean {a : Analysis α} (h : a.hasErrors = false)
    (resolver : α → Resolved α) : a.resolveClean resolver = a.resolve resolver := by
  rw [resolveClean, h]
  rfl

/-- Resolving takes nothing back. -/
theorem resolveClean_isPrefix (a : Analysis α) (resolver : α → Resolved α) :
    a.diagnostics.items.toList <+: (a.resolveClean resolver).diagnostics.items.toList := by
  rw [resolveClean]
  cases herrors : a.hasErrors with
  | true => exact List.prefix_rfl
  | false => exact (Diagnostics.hasErrors_eq_false_iff.mp herrors).symm ▸ List.nil_prefix

theorem resolve_of_some {a : Analysis α} {resolver : α → Resolved α} {parsed resolved : α}
    (ha : a.result = some parsed) (h : (resolver parsed).result = some resolved) :
    a.resolve resolver = { a with
      diagnostics := (a.diagnostics.enter .resolution).reportTokens ScopeError.message
        (resolver parsed).errors
      findings := (resolver parsed).findings
      result := some resolved } := by
  simp only [resolve, ha, h]

theorem resolve_of_none {a : Analysis α} {resolver : α → Resolved α} {parsed : α}
    (ha : a.result = some parsed) (h : (resolver parsed).result = none) :
    a.resolve resolver = reportNesting { a with
      diagnostics := (a.diagnostics.enter .resolution).reportTokens ScopeError.message
        (resolver parsed).errors
      findings := (resolver parsed).findings } := by
  simp only [resolve, ha, h]

/-- Where nothing is nested too deeply, nothing is said about nesting. -/
theorem message_ne_of_not_tooDeep {parser : List Token → Token → Parsed α}
    {resolver : α → Resolved α} {source : String}
    (hdeep : ((parse parser source).resolveClean resolver).tooDeep = false) {d : Diagnostic}
    (hd : d ∈ ((parse parser source).resolveClean resolver).diagnostics.items.toList) :
    d.message ≠ "Too much nesting." := by
  have hparse : (parse parser source).tooDeep = false →
      ∀ d ∈ (parse parser source).diagnostics.items.toList, d.message ≠ "Too much nesting." := by
    intro hdeep d hd
    rw [parse] at hdeep hd
    cases hresult : (parser (Lox.scan source).tokens (Lox.scan source).finish).result with
    | ok a =>
      rw [hresult] at hd
      exact message_ne_of_mem_lexedAndParsed hd
    | error abort =>
      rw [hresult] at hdeep hd
      cases abort with
      | fault => exact message_ne_of_mem_lexedAndParsed hd
      | tooDeep | exhausted => cases hdeep
  cases hclean : (parse parser source).hasErrors with
  | true =>
    rw [resolveClean, if_pos hclean] at hdeep hd
    exact hparse hdeep d hd
  | false =>
    rw [resolveClean_of_clean hclean] at hdeep hd
    cases hparsed : (parse parser source).result with
    | none =>
      rw [resolve, hparsed] at hdeep hd
      exact hparse hdeep d hd
    | some parsed =>
      cases hresolved : (resolver parsed).result with
      | none =>
        rw [resolve_of_none hparsed hresolved] at hdeep
        cases hdeep
      | some resolved =>
        rw [resolve_of_some hparsed hresolved] at hdeep hd
        have hentered : ∀ d ∈ ((parse parser source).diagnostics.enter .resolution).items.toList,
            d.message ≠ "Too much nesting." := hparse hdeep
        exact message_ne_of_mem_resolved hentered hd

/-! ## Analyses under two bounds -/

/-- The parser or the resolver runs out of nested calls on a text. -/
inductive Exceeds (parser : List Token → Token → Parsed α) (resolver : α → Resolved α)
    (source : String) : Prop where
  | parsing : (parser (Lox.scan source).tokens (Lox.scan source).finish).result = .error .tooDeep →
      Exceeds parser resolver source
  | resolving {whole : α} : (parse parser source).hasErrors = false →
      (parse parser source).result = some whole → (resolver whole).result = none →
      Exceeds parser resolver source

/-- The first parser and the first resolver have less room than the second ones. Where they are
stopped for want of it, they have complained about what the others complain about first. -/
structure Cramped (parser parser' : List Token → Token → Parsed α)
    (resolver resolver' : α → Resolved α) : Prop where
  parses : ∀ tokens finish, ((parser tokens finish).result = .error .tooDeep ∧
    (parser tokens finish).errors <+: (parser' tokens finish).errors) ∨
      parser tokens finish = parser' tokens finish
  /-- No loop of the parser is stopped by its bound. -/
  bounded : ∀ tokens finish, Token.kind finish = .eof →
    (parser tokens finish).result ≠ .error .exhausted
  resolves : ∀ parsed, ((resolver parsed).result = none ∧
    (resolver parsed).errors <+: (resolver' parsed).errors) ∨ resolver parsed = resolver' parsed

/-- An analysis that is given up at some stage because the text is nested too deeply, and another
one that has more room. The complaint about it is the last one, and the only one of its kind. What
has been complained about before is kept, and it is what the other analysis complains about first.
Where the parser gives up, there is no result; where the resolver does, the result is the whole of
what was parsed. -/
structure GivenUp (source : String) (parsed parsed' : Parsed α) (resolver : α → Resolved α)
    (a a' : Analysis α) (stage : Stage) (earlier : List Diagnostic) : Prop where
  diagnostics : a.diagnostics.items.toList
    = earlier ++ [.atLine stage (Lox.scan source).firstToken.line "Too much nesting."]
  only : ∀ d ∈ earlier, d.message ≠ "Too much nesting."
  kept : earlier <+: a'.diagnostics.items.toList
  stages : (stage = .syntactic ∧ a.result = none ∧
      earlier = ((Lox.scan source).errors.map fun e ↦ .atLine .lexical e.1 e.2.message)
        ++ parsed.errors.map fun e ↦ .atToken .syntactic e.1 e.2.message) ∨
    (stage = .resolution ∧ ∃ whole, parsed = ⟨.ok whole, []⟩ ∧ parsed' = ⟨.ok whole, []⟩ ∧
      a.result = some whole ∧
      earlier = (resolver whole).errors.map fun e ↦ .atToken .resolution e.1 e.2.message)

section Cramped

variable {parser parser' : List Token → Token → Parsed α} {resolver resolver' : α → Resolved α}
  {source : String}

theorem Cramped.eq_of_not_tooDeep (h : Cramped parser parser' resolver resolver')
    (hdeep : ((parse parser source).resolveClean resolver).tooDeep = false) :
    (parse parser' source).resolveClean resolver'
      = (parse parser source).resolveClean resolver := by
  rcases h.parses (Lox.scan source).tokens (Lox.scan source).finish with ⟨hstop, -⟩ | hsame
  · rw [parse_of_tooDeep hstop, resolveClean, if_pos hasErrors_reportNesting] at hdeep
    cases hdeep
  · have hparse : parse parser' source = parse parser source := by rw [parse, parse, hsame]
    rw [hparse]
    cases herrors : (parse parser source).hasErrors with
    | true => rw [resolveClean, resolveClean, if_pos herrors, if_pos herrors]
    | false =>
      rw [resolveClean_of_clean herrors] at hdeep ⊢
      rw [resolveClean_of_clean herrors]
      cases hparsed : (parse parser source).result with
      | none => rw [resolve, resolve, hparsed]
      | some parsed =>
        rcases h.resolves parsed with ⟨hstop, -⟩ | hsame
        · rw [resolve_of_none hparsed hstop] at hdeep
          cases hdeep
        · simp only [resolve, hparsed, hsame]

/-- Where the parser gives up. -/
theorem Cramped.givenUp_parsing (h : Cramped parser parser' resolver resolver')
    (hstop : (parser (Lox.scan source).tokens (Lox.scan source).finish).result = .error .tooDeep) :
    ∃ earlier, GivenUp source (parser (Lox.scan source).tokens (Lox.scan source).finish)
      (parser' (Lox.scan source).tokens (Lox.scan source).finish) resolver
      ((parse parser source).resolveClean resolver) ((parse parser' source).resolveClean resolver')
      .syntactic earlier := by
  have herrors : (parser (Lox.scan source).tokens (Lox.scan source).finish).errors
      <+: (parser' (Lox.scan source).tokens (Lox.scan source).finish).errors := by
    rcases h.parses (Lox.scan source).tokens (Lox.scan source).finish with ⟨-, hprefix⟩ | hsame
    · exact hprefix
    · simp only [hsame, List.prefix_rfl]
  have hkept := (lexedAndParsed_isPrefix parser' source).trans
    (resolveClean_isPrefix (parse parser' source) resolver')
  rw [toList_lexedAndParsed] at hkept
  have hfirst : (parse parser source).resolveClean resolver = parse parser source := by
    rw [parse_of_tooDeep hstop, resolveClean, if_pos hasErrors_reportNesting]
  rw [hfirst, parse_of_tooDeep hstop]
  refine ⟨_, ?_, ?_, ?_, .inl ⟨rfl, rfl, rfl⟩⟩
  · rw [toList_reportNesting, toList_lexedAndParsed, stage_lexedAndParsed]
  · intro d hd
    exact message_ne_of_mem_lexedAndParsed (by rw [toList_lexedAndParsed]; exact hd)
  · exact ((List.prefix_append_right_inj _).mpr (herrors.map _)).trans hkept

/-- Where the resolver gives up. -/
theorem Cramped.givenUp_resolving (h : Cramped parser parser' resolver resolver') {whole : α}
    (hparsed : parser (Lox.scan source).tokens (Lox.scan source).finish = ⟨.ok whole, []⟩)
    (hclean : (parse parser source).hasErrors = false)
    (hstop : (resolver whole).result = none) :
    ∃ earlier, GivenUp source (parser (Lox.scan source).tokens (Lox.scan source).finish)
      (parser' (Lox.scan source).tokens (Lox.scan source).finish) resolver
      ((parse parser source).resolveClean resolver) ((parse parser' source).resolveClean resolver')
      .resolution earlier := by
  have hparsed' : parser' (Lox.scan source).tokens (Lox.scan source).finish = ⟨.ok whole, []⟩ := by
    rcases h.parses (Lox.scan source).tokens (Lox.scan source).finish with ⟨hdeep, -⟩ | hsame
    · rw [hparsed] at hdeep
      cases hdeep
    · rw [← hsame, hparsed]
  have herrors : (resolver whole).errors <+: (resolver' whole).errors := by
    rcases h.resolves whole with ⟨-, hprefix⟩ | hsame
    · exact hprefix
    · simp only [hsame, List.prefix_rfl]
  have hscan : (Lox.scan source).errors = [] := (scan_parse_clean hclean).1
  have hparse := parse_eq_of_clean hscan hparsed
  have hparse' := parse_eq_of_clean hscan hparsed'
  rw [resolveClean_of_clean hclean, hparse, resolve_of_none rfl hstop]
  refine ⟨_, ?_, ?_, ?_, .inr ⟨rfl, whole, hparsed, hparsed', rfl, rfl⟩⟩
  · rw [toList_reportNesting, Diagnostics.toList_reportTokens, Diagnostics.stage_reportTokens]
    rfl
  · intro d hd
    obtain ⟨e, -, rfl⟩ := List.mem_map.mp hd
    exact e.2.message_ne
  · have hsecond : ((Diagnostics.mk .resolution #[]).reportTokens ScopeError.message
        (resolver' whole).errors).items.toList
        <+: ((parse parser' source).resolveClean resolver').diagnostics.items.toList := by
      rw [hparse', resolveClean_of_clean rfl]
      cases hresolved : (resolver' whole).result with
      | some resolved =>
        rw [resolve_of_some rfl hresolved]
        exact List.prefix_rfl
      | none =>
        rw [resolve_of_none rfl hresolved]
        exact toList_reportNesting _ ▸ List.prefix_append _ _
    rw [Diagnostics.toList_reportTokens] at hsecond
    exact (herrors.map _).trans hsecond

theorem Cramped.givenUp (h : Cramped parser parser' resolver resolver')
    (hexceeds : Exceeds parser resolver source) :
    ∃ stage earlier, GivenUp source (parser (Lox.scan source).tokens (Lox.scan source).finish)
      (parser' (Lox.scan source).tokens (Lox.scan source).finish) resolver
      ((parse parser source).resolveClean resolver) ((parse parser' source).resolveClean resolver')
      stage earlier := by
  cases hexceeds with
  | parsing hstop => exact ⟨_, h.givenUp_parsing hstop⟩
  | resolving hclean hwhole hstop =>
    exact ⟨_, h.givenUp_resolving (parse_clean hclean hwhole) hclean hstop⟩

theorem Cramped.exceeds_of_tooDeep (h : Cramped parser parser' resolver resolver')
    (hdeep : ((parse parser source).resolveClean resolver).tooDeep = true) :
    Exceeds parser resolver source := by
  cases hresult : (parser (Lox.scan source).tokens (Lox.scan source).finish).result with
  | error abort =>
    cases abort with
    | tooDeep => exact .parsing hresult
    | exhausted =>
      exact absurd hresult (h.bounded _ _ (congrArg Token.kind (finish_scan source)))
    | fault =>
      have hparse : (parse parser source).result = none ∧
          (parse parser source).tooDeep = false := by
        rw [parse, hresult]
        exact ⟨rfl, rfl⟩
      rw [resolveClean, resolve, hparse.1, ite_self, hparse.2] at hdeep
      cases hdeep
  | ok whole =>
    have hparse := parse_of_ok hresult
    cases hclean : (parse parser source).hasErrors with
    | true =>
      rw [resolveClean, if_pos hclean, hparse] at hdeep
      cases hdeep
    | false =>
      rw [resolveClean_of_clean hclean] at hdeep
      cases hresolved : (resolver whole).result with
      | some resolved =>
        rw [resolve_of_some (by rw [hparse]) hresolved, hparse] at hdeep
        cases hdeep
      | none => exact .resolving hclean (by rw [hparse]) hresolved

/-- Something is said about nesting exactly if the parser or the resolver runs out of it. -/
theorem Cramped.reported_iff (h : Cramped parser parser' resolver resolver') :
    (∃ d ∈ ((parse parser source).resolveClean resolver).diagnostics.items.toList,
      d.message = "Too much nesting.") ↔ Exceeds parser resolver source := by
  constructor
  · rintro ⟨d, hd, hmessage⟩
    refine h.exceeds_of_tooDeep (Bool.not_eq_false _ ▸ fun hdeep ↦ ?_)
    exact message_ne_of_not_tooDeep hdeep hd hmessage
  · intro hexceeds
    obtain ⟨stage, earlier, hgiven⟩ := h.givenUp hexceeds
    refine ⟨.atLine stage (Lox.scan source).firstToken.line "Too much nesting.", ?_, rfl⟩
    rw [hgiven.diagnostics]
    exact List.mem_append_right _ (List.mem_singleton_self _)

theorem Cramped.hasErrors_of_exceeds (h : Cramped parser parser' resolver resolver')
    (hexceeds : Exceeds parser resolver source) :
    ((parse parser source).resolveClean resolver).hasErrors = true := by
  obtain ⟨stage, earlier, hgiven⟩ := h.givenUp hexceeds
  refine Bool.not_eq_false _ ▸ fun hclean ↦ ?_
  have hnil := hgiven.diagnostics.symm.trans (Diagnostics.hasErrors_eq_false_iff.mp hclean)
  exact List.cons_ne_nil _ _ (List.append_eq_nil_iff.mp hnil).2

/-- Where nothing is said about nesting, more room makes no difference. -/
theorem Cramped.eq_of_not_exceeds (h : Cramped parser parser' resolver resolver')
    (hexceeds : ¬ Exceeds parser resolver source) :
    (parse parser' source).resolveClean resolver' = (parse parser source).resolveClean resolver :=
  h.eq_of_not_tooDeep (Bool.not_eq_true _ ▸ fun hdeep ↦ hexceeds (h.exceeds_of_tooDeep hdeep))

end Cramped

end Analysis

/-! ## The bounds of the parser and the resolver -/

section Bounds

variable {n m : Nat}

theorem Parser.run_ne_exhausted {α : Type} {p : Input → Parse α} {tokens : List Token}
    {finish : Token}
    (h : Progress finish (tokens.length + 1) 0 (p ⟨finish, tokens.length + 1⟩)) :
    (run p tokens finish).result ≠ .error .exhausted := by
  intro hresult
  rw [run] at hresult
  cases hp : p ⟨finish, tokens.length + 1⟩ ⟨tokens, 0, []⟩ with
  | ok a s' =>
    rw [hp] at hresult
    cases hresult
  | error abort s' =>
    rw [hp] at hresult
    cases hresult
    exact absurd rfl (Ends.of_error (h ⟨tokens, 0, []⟩ (Nat.lt_succ_self _)) hp).2.1

theorem cramped_program (hle : n ≤ m) : Analysis.Cramped (parseProgram n) (parseProgram m)
    (resolveProgram n) (resolveProgram m) where
  parses := Parser.run_of_extended fun _ ↦
    Parser.extended_program Parser.Abort.noConfusion (.refl _ _) (.of_le hle)
  bounded _ _ hfinish := Parser.run_ne_exhausted (p := fun input ↦ Parser.program input n)
    (progress_program hfinish)
  resolves := resolveProgram_deeper hle

theorem cramped_expression (hle : n ≤ m) : Analysis.Cramped (parseExpression n) (parseExpression m)
    (resolveExpression n) (resolveExpression m) where
  parses := Parser.run_of_extended fun _ ↦
    Parser.extended_wholeExpression (.refl _ _) (.of_le hle)
  bounded _ _ hfinish := Parser.run_ne_exhausted (p := fun input ↦ Parser.wholeExpression input n)
    (progress_wholeExpression hfinish)
  resolves e := Scoping.run_of_deepens (Scoping.deepens_expression hle e)

end Bounds

/-! ## Sessions under two bounds -/

/-- The parser or the resolver runs out of nested calls on the text of a command. -/
def Command.Exceeds (nesting : Nat) : Command → Prop
  | run source | compile source =>
    Analysis.Exceeds (parseProgram nesting) (resolveProgram nesting) source
  | evaluate source =>
    Analysis.Exceeds (parseExpression nesting) (resolveExpression nesting) source

/-- The messages in an answer: those of the diagnostics, and that of the issue. -/
def Answer.messages : Answer → List String
  | run r => r.compilation.diagnostics.items.toList.map Diagnostic.message
    ++ (r.issue?.map Issue.message).toList
  | evaluation e => e.compilation.diagnostics.items.toList.map Diagnostic.message
    ++ (e.issue?.map Issue.message).toList
  | compilation c => c.diagnostics.items.toList.map Diagnostic.message

namespace Session

open Eval (Truncates)

variable {n m : Nat} {s : Session}

/-- A session as it would be with another bound on nested calls. -/
def withNesting (s : Session) (nesting : Nat) : Session :=
  { s with host := { s.host with nesting } }

theorem withNesting_perform {α : Type} (s : Session) (p : Eval α) (n m : Nat) :
    ((s.withNesting n).perform p).2.withNesting m
      = { ((s.withNesting n).perform p).2 with host := (s.withNesting m).host } := by
  rw [perform]
  cases p (s.withNesting n).machine <;> rfl

theorem perform_deeper {α : Type} {t u : Session} {p q : Eval α} (hmachine : u.machine = t.machine)
    (houtputs : u.outputs = t.outputs) (h : Truncates stackOverflow p q)
    (hresult : (t.perform p).1.result ≠ .error stackOverflow) :
    (u.perform q).1 = (t.perform p).1 ∧
      (u.perform q).2 = { (t.perform p).2 with host := u.host } := by
  obtain ⟨hexecution, hlater⟩ := (perform_truncates hmachine h).resolve_right fun h ↦ hresult h.1
  have hhost : (u.perform q).2.host = u.host := by
    rw [perform]
    cases q u.machine <;> rfl
  have hout : (u.perform q).2.outputs = (t.perform p).2.outputs := by
    rw [outputs_perform, outputs_perform, hexecution, houtputs]
  refine ⟨hexecution, ?_⟩
  calc (u.perform q).2
    _ = ⟨(u.perform q).2.host, (u.perform q).2.machine, (u.perform q).2.outputs⟩ := rfl
    _ = ⟨u.host, (t.perform p).2.machine, (t.perform p).2.outputs⟩ := by rw [hhost, hlater, hout]

theorem printed_perform_deeper {α : Type} {t u : Session} {p q : Eval α}
    (hmachine : u.machine = t.machine) (h : Truncates stackOverflow p q) :
    (t.perform p).1.printed <+: (u.perform q).1.printed := by
  rcases perform_truncates hmachine h with ⟨hexecution, -⟩ | ⟨-, hprinted, -⟩
  · simp only [hexecution, List.prefix_rfl]
  · exact hprinted

theorem truncates_textOf (host : Host) (hle : n ≤ m) (e : Expr) :
    Truncates stackOverflow (textOf { host with nesting := n } e)
      (textOf { host with nesting := m } e) := by
  refine (Eval.congruent_truncates stackOverflow_ne_returning).bind
    (p := Eval.evaluate { host with nesting := n } n e)
    (q := Eval.evaluate { host with nesting := m } m e) (f := fun v ↦ pure v.text)
    (g := fun v ↦ pure v.text) ?_ fun _ ↦ (Eval.Quiet.pure _).truncates
  exact truncates_nesting host hle (.evaluate e)

theorem overflows_textOf (host : Host) (e : Expr) : (textOf host e).Overflows :=
  Eval.congruent_overflows.bind (q := Eval.evaluate host host.nesting e) (g := fun v ↦ pure v.text)
    (Task.overflows host host.nesting (.evaluate e)) fun _ _ ↦ trivial

theorem overflows_run (host : Host) (program : List Stmt) : (Eval.run host program).Overflows := by
  rw [← run_programScript]
  exact @Script.run_congruent _ _ Eval.congruent_overflows (Task.run host host.nesting)
    (Task.run host host.nesting) (fun t ↦ Task.overflows host host.nesting t) _
    (.forM (fun _ ↦ .answer _) program)

/-- An execution that says that calls are nested too deeply has run out of nested calls. -/
theorem result_perform_of_message {α : Type} {p : Eval α} (hp : p.Overflows)
    (h : (s.perform p).1.issue?.map Issue.message = some "Stack overflow.") :
    (s.perform p).1.result = .error stackOverflow := by
  obtain ⟨i, hi, hmessage⟩ := Option.map_eq_some_iff.mp h
  have hcause := Issue.Cause.eq_stackOverflow hmessage
  have hends := hp s.machine
  rw [Ends] at hends
  cases hrun : p s.machine with
  | ok a M =>
    rw [perform_of_ok hrun] at hi
    cases hi
  | error j M =>
    rw [hrun] at hends
    rw [perform_of_error hrun] at hi ⊢
    cases j with
    | issue j =>
      cases hi
      obtain ⟨cause, line⟩ := i
      cases hcause
      rcases hends rfl with hstack | hexhausted
      · exact congrArg Except.error hstack
      · cases hexhausted
    | _ => cases hi

/-! ### Commands -/

/-- What happens to a command under two bounds, where the smaller one is enough for its text. Either
nothing is executed, or the same thing is executed with fewer and with more nested calls. -/
theorem serve_deeper_cases (hle : n ≤ m) (s : Session) {r : Command} (hr : ¬ r.Exceeds n) :
    ((s.withNesting m).answer r = (s.withNesting n).answer r ∧
      (s.withNesting n).serve r = s.withNesting n ∧ (s.withNesting m).serve r = s.withNesting m ∧
      ((s.withNesting n).answer r).issue? = none ∧
      ∀ nesting chain, ¬ (s.withNesting n).Doing nesting chain r) ∨
    ∃ (α : Type) (t : Session) (p q : Eval α) (answer : Execution α → Answer),
      Truncates stackOverflow p q ∧ p.Overflows ∧
      (∀ e, (answer e).issue? = e.issue? ∧ (answer e).printed = e.printed) ∧
      (s.withNesting n).answer r = answer ((t.withNesting n).perform p).1 ∧
      (s.withNesting n).serve r = ((t.withNesting n).perform p).2 ∧
      (s.withNesting m).answer r = answer ((t.withNesting m).perform q).1 ∧
      (s.withNesting m).serve r = ((t.withNesting m).perform q).2 ∧
      ∀ chain, (s.withNesting n).Doing 0 chain r → ∃ M, p t.machine = .error stackOverflow M := by
  cases r with
  | run source =>
    have hsame : Lox.compile (s.withNesting m).host.nesting source
        = Lox.compile (s.withNesting n).host.nesting source :=
      (cramped_program hle).eq_of_not_exceeds hr
    cases hclean : (Lox.compile (s.withNesting n).host.nesting source).hasErrors with
    | true =>
      rw [answer, answer, serve, serve, run_of_errors hclean, run_of_errors (hsame ▸ hclean), hsame]
      refine .inl ⟨rfl, rfl, rfl, rfl, fun nesting chain hdoing ↦ ?_⟩
      exact Bool.false_ne_true (hdoing.1.symm.trans hclean)
    | false =>
      rw [answer, answer, serve, serve, run_of_clean hclean, run_of_clean (hsame ▸ hclean), hsame]
      refine .inr ⟨Unit, { s with outputs := [] :: s.outputs }, _, _, fun e ↦ .run ⟨_, some e⟩,
        truncates_program s.host hle _, overflows_run _ _, fun _ ↦ ⟨rfl, rfl⟩, rfl, rfl, rfl, rfl,
        fun chain hdoing ↦ ?_⟩
      rw [← run_programScript]
      exact hdoing.2.overflow
  | evaluate source =>
    have hsame : compileExpression (s.withNesting m).host.nesting source
        = compileExpression (s.withNesting n).host.nesting source :=
      (cramped_expression hle).eq_of_not_exceeds hr
    cases hresult : (compileExpression (s.withNesting n).host.nesting source).result with
    | none =>
      rw [answer, answer, serve, serve, evaluate_of_none hresult,
        evaluate_of_none (hsame ▸ hresult), hsame]
      refine .inl ⟨rfl, rfl, rfl, rfl, fun nesting chain hdoing ↦ ?_⟩
      obtain ⟨-, e, he, -⟩ := hdoing
      rw [hresult] at he
      cases he
    | some e =>
      cases hclean : (compileExpression (s.withNesting n).host.nesting source).hasErrors with
      | true =>
        rw [answer, answer, serve, serve, evaluate_of_errors hclean,
          evaluate_of_errors (hsame ▸ hclean), hsame]
        refine .inl ⟨rfl, rfl, rfl, rfl, fun nesting chain hdoing ↦ ?_⟩
        exact Bool.false_ne_true (hdoing.1.symm.trans hclean)
      | false =>
        rw [answer, answer, serve, serve, evaluate_of_clean hclean hresult,
          evaluate_of_clean (hsame ▸ hclean) (hsame ▸ hresult), hsame]
        refine .inr ⟨String, s, _, _, fun e ↦ .evaluation ⟨_, some e⟩,
          truncates_textOf s.host hle e, overflows_textOf _ _, fun _ ↦ ⟨rfl, rfl⟩, rfl, rfl, rfl,
          rfl, fun chain hdoing ↦ ?_⟩
        obtain ⟨-, e', he', hdoing⟩ := hdoing
        obtain rfl : e = e' := Option.some.inj (hresult.symm.trans he')
        obtain ⟨M, hM⟩ := hdoing.overflow
        rw [Script.run_answer] at hM
        exact ⟨M, bind_of_error hM⟩
  | compile source =>
    refine .inl ⟨?_, rfl, rfl, rfl, fun nesting chain hdoing ↦ hdoing⟩
    exact congrArg Answer.compilation ((cramped_program hle).eq_of_not_exceeds hr)

theorem compilation_run (s : Session) (source : String) :
    (s.run source).1.compilation = Lox.compile s.host.nesting source := by
  cases hclean : (Lox.compile s.host.nesting source).hasErrors with
  | true => rw [run_of_errors hclean]
  | false => rw [run_of_clean hclean]

theorem compilation_evaluate (s : Session) (source : String) :
    (s.evaluate source).1.compilation = compileExpression s.host.nesting source := by
  rw [evaluate]
  split <;> rfl

/-- What the parser or the resolver says about nesting is in the answer. -/
theorem mem_messages_of_exceeds {r : Command} (h : r.Exceeds n) :
    "Too much nesting." ∈ ((s.withNesting n).answer r).messages := by
  cases r with
  | run source =>
    obtain ⟨d, hd, hmessage⟩ := (cramped_program (Nat.le_refl n)).reported_iff.mpr h
    rw [answer, Answer.messages, compilation_run]
    exact List.mem_append_left _ (List.mem_map.mpr ⟨d, hd, hmessage⟩)
  | evaluate source =>
    obtain ⟨d, hd, hmessage⟩ := (cramped_expression (Nat.le_refl n)).reported_iff.mpr h
    rw [answer, Answer.messages, compilation_evaluate]
    exact List.mem_append_left _ (List.mem_map.mpr ⟨d, hd, hmessage⟩)
  | compile source =>
    obtain ⟨d, hd, hmessage⟩ := (cramped_program (Nat.le_refl n)).reported_iff.mpr h
    exact List.mem_map.mpr ⟨d, hd, hmessage⟩

theorem run_of_exceeds {source : String} (h : Command.Exceeds n (.run source)) :
    (s.withNesting n).run source = (⟨Lox.compile n source, none⟩, s.withNesting n) :=
  run_of_errors (s := s.withNesting n)
    ((cramped_program (Nat.le_refl n)).hasErrors_of_exceeds h)

theorem evaluate_of_exceeds {source : String} (h : Command.Exceeds n (.evaluate source)) :
    (s.withNesting n).evaluate source
      = (⟨compileExpression n source, none⟩, s.withNesting n) :=
  evaluate_of_errors (s := s.withNesting n)
    ((cramped_expression (Nat.le_refl n)).hasErrors_of_exceeds h)

/-- Where the parser or the resolver runs out of nested calls, nothing is executed. -/
theorem not_doing_of_exceeds {r : Command} (h : r.Exceeds n) :
    ((s.withNesting n).answer r).issue? = none ∧
      ∀ nesting chain, ¬ (s.withNesting n).Doing nesting chain r := by
  cases r with
  | run source =>
    rw [answer, run_of_exceeds h]
    refine ⟨rfl, fun nesting chain hdoing ↦ ?_⟩
    have herrors := (cramped_program (Nat.le_refl n)).hasErrors_of_exceeds h
    exact Bool.false_ne_true (hdoing.1.symm.trans herrors)
  | evaluate source =>
    rw [answer, evaluate_of_exceeds h]
    refine ⟨rfl, fun nesting chain hdoing ↦ ?_⟩
    have herrors := (cramped_expression (Nat.le_refl n)).hasErrors_of_exceeds h
    exact Bool.false_ne_true (hdoing.1.symm.trans herrors)
  | compile source => exact ⟨rfl, fun nesting chain hdoing ↦ hdoing⟩

theorem mem_messages_of_issue {a : Answer} (h : a.issue? = some (.anywhere .stackOverflow)) :
    "Stack overflow." ∈ a.messages := by
  cases a with
  | run r =>
    refine List.mem_append_right _ ?_
    rw [show r.issue? = _ from h]
    exact List.mem_singleton_self _
  | evaluation e =>
    refine List.mem_append_right _ ?_
    rw [show e.issue? = _ from h]
    exact List.mem_singleton_self _
  | compilation c => cases h

theorem issue?_of_result {α : Type} {e : Execution α} (h : e.result = .error stackOverflow) :
    e.issue? = some (.anywhere .stackOverflow) := by
  rw [Execution.issue?, h]
  rfl

/-- Where nothing is said about nesting, a command is served in the same way with a larger bound. -/
theorem serve_deeper (hle : n ≤ m) (s : Session) {r : Command}
    (hdeep : "Too much nesting." ∉ ((s.withNesting n).answer r).messages)
    (hissue : ((s.withNesting n).answer r).issue? ≠ some (.anywhere .stackOverflow)) :
    (s.withNesting m).answer r = (s.withNesting n).answer r ∧
      (s.withNesting m).serve r = ((s.withNesting n).serve r).withNesting m := by
  rcases serve_deeper_cases hle s fun h ↦ hdeep (mem_messages_of_exceeds h) with
    ⟨hanswer, hn, hm, -⟩ | ⟨α, t, p, q, answer, htruncates, -, hseen, han, hsn, ham, hsm, -⟩
  · exact ⟨hanswer, by rw [hn, hm]; rfl⟩
  · have hresult : ((t.withNesting n).perform p).1.result ≠ .error stackOverflow := fun h ↦
      hissue (by rw [han, (hseen _).1, issue?_of_result h])
    obtain ⟨hexecution, hlater⟩ := perform_deeper (t := t.withNesting n) (u := t.withNesting m)
      rfl rfl htruncates hresult
    refine ⟨by rw [han, ham, hexecution], ?_⟩
    rw [hsn, hsm]
    exact hlater.trans (withNesting_perform t p n m).symm

/-- Where calls are nested too deeply, what was printed before comes first with a larger bound. -/
theorem answer_overflows (hle : n ≤ m) (s : Session) {r : Command}
    (h : (∃ chain, (s.withNesting n).Doing 0 chain r) ∨
      ((s.withNesting n).answer r).issue?.map Issue.message = some "Stack overflow.") :
    ((s.withNesting n).answer r).issue? = some (.anywhere .stackOverflow) ∧
      ((s.withNesting n).answer r).printed <+: ((s.withNesting m).answer r).printed := by
  by_cases hr : r.Exceeds n
  · obtain ⟨hissue, hdoing⟩ := not_doing_of_exceeds (s := s) hr
    rcases h with ⟨chain, h⟩ | h
    · exact absurd h (hdoing 0 chain)
    · rw [hissue] at h
      cases h
  · rcases serve_deeper_cases hle s hr with ⟨-, -, -, hissue, hdoing⟩ |
      ⟨α, t, p, q, answer, htruncates, hoverflows, hseen, han, -, ham, -, hdoing⟩
    · rcases h with ⟨chain, h⟩ | h
      · exact absurd h (hdoing 0 chain)
      · rw [hissue] at h
        cases h
    · have hresult : ((t.withNesting n).perform p).1.result = .error stackOverflow := by
        rcases h with ⟨chain, h⟩ | h
        · obtain ⟨M, hM⟩ := hdoing chain h
          rw [perform_of_error (s := t.withNesting n) hM]
          rfl
        · rw [han, (hseen _).1] at h
          exact result_perform_of_message hoverflows h
      rw [han, ham, (hseen _).1, (hseen _).2, (hseen _).2]
      exact ⟨issue?_of_result hresult, printed_perform_deeper rfl htruncates⟩

/-- The bound on nested calls is only ever seen as what is said about it.

Take any session with a bound `n`, and another one that is the same but for a larger bound `m`. If
the answer to a command says neither that a text nor that calls are nested too deeply, then the
other session gives the same answer, and it is the same session afterwards. If the parser or the
resolver runs out of nested calls, and only then, the text is said to be nested too deeply: once, in
the end, and after everything that was complained about before, which the other session complains
about as well; and nothing is executed. If calls run out while something is executed, then it ends
in an overflow, for which no line is to blame, and what was printed before is what the other session
prints first. -/
theorem nesting_shows_only_itself {n m : Nat} (hle : n ≤ m) (s : Session) :
    (∀ r : Command, "Too much nesting." ∉ ((s.withNesting n).answer r).messages →
      "Stack overflow." ∉ ((s.withNesting n).answer r).messages →
      (s.withNesting m).answer r = (s.withNesting n).answer r ∧
        (s.withNesting m).serve r = ((s.withNesting n).serve r).withNesting m) ∧
    (∀ source : String,
      let scanned := Lox.scan source
      let exceeds := Analysis.Exceeds (parseProgram n) (resolveProgram n) source
      (exceeds ↔ ∃ d ∈ (Lox.compile n source).diagnostics.items.toList,
        d.message = "Too much nesting.") ∧
      (exceeds → (∃ stage earlier, Analysis.GivenUp source
          (parseProgram n scanned.tokens scanned.finish)
          (parseProgram m scanned.tokens scanned.finish) (resolveProgram n)
          (Lox.compile n source) (Lox.compile m source) stage earlier) ∧
        (s.withNesting n).run source = (⟨Lox.compile n source, none⟩, s.withNesting n))) ∧
    (∀ source : String,
      let scanned := Lox.scan source
      let exceeds := Analysis.Exceeds (parseExpression n) (resolveExpression n) source
      (exceeds ↔ ∃ d ∈ (compileExpression n source).diagnostics.items.toList,
        d.message = "Too much nesting.") ∧
      (exceeds → (∃ stage earlier, Analysis.GivenUp source
          (parseExpression n scanned.tokens scanned.finish)
          (parseExpression m scanned.tokens scanned.finish) (resolveExpression n)
          (compileExpression n source) (compileExpression m source) stage earlier) ∧
        (s.withNesting n).evaluate source
          = (⟨compileExpression n source, none⟩, s.withNesting n))) ∧
    (∀ r : Command, (∃ chain, (s.withNesting n).Doing 0 chain r) ∨
        ((s.withNesting n).answer r).issue?.map Issue.message = some "Stack overflow." →
      ((s.withNesting n).answer r).issue? = some (.anywhere .stackOverflow) ∧
        ((s.withNesting n).answer r).printed <+: ((s.withNesting m).answer r).printed) := by
  refine ⟨fun r hdeep hstack ↦ ?_, fun source ↦ ?_, fun source ↦ ?_, fun r h ↦ ?_⟩
  · exact serve_deeper hle s hdeep fun h ↦ hstack (mem_messages_of_issue h)
  · exact ⟨(cramped_program hle).reported_iff.symm,
      fun h ↦ ⟨(cramped_program hle).givenUp h, run_of_exceeds h⟩⟩
  · exact ⟨(cramped_expression hle).reported_iff.symm,
      fun h ↦ ⟨(cramped_expression hle).givenUp h, evaluate_of_exceeds h⟩⟩
  · exact answer_overflows hle s h

/-- Twenty nested calls and sixty. Twenty are enough for a plain value, and too few for parentheses
within parentheses or for a function that calls itself without end. -/
theorem nesting_shows_only_itself_twenty :
    (((start ⟨none, fun _ ↦ 0, 0, 9⟩).withNesting 60).answer (.run "print nil;")
        = ((start ⟨none, fun _ ↦ 0, 0, 9⟩).withNesting 20).answer (.run "print nil;")) ∧
      (((start ⟨none, fun _ ↦ 0, 0, 9⟩).withNesting 20).run "print ((nil));"
        = (⟨Lox.compile 20 "print ((nil));", none⟩,
          (start ⟨none, fun _ ↦ 0, 0, 9⟩).withNesting 20)) ∧
      (((start ⟨none, fun _ ↦ 0, 0, 9⟩).withNesting 20).answer
          (.run "fun f() \x7b print nil; f(); \x7d f();")).issue?
        = some (.anywhere .stackOverflow) := by
  obtain ⟨hsame, hprogram, -, hoverflow⟩ := nesting_shows_only_itself (n := 20) (m := 60)
    (by decide) (start ⟨none, fun _ ↦ 0, 0, 9⟩)
  refine ⟨?_, ?_, ?_⟩
  · exact (hsame _ (by decide +kernel) (by decide +kernel)).1
  · exact ((hprogram _).2 ((hprogram _).1.mpr (by decide +kernel))).2
  · exact (hoverflow _ (.inr (by decide +kernel))).1

end Session

end Lox
