import Lox.Prompt
import Lox.Proofs.Lexical.Safety
import Lox.Proofs.Scoping.Height

/-!
# What the prompt answers

A line that is not a word to end the conversation and not blank is a source text, and the
conversation goes on after it. Which of the two ways it is dealt with is decided by a parse of its
own, before it is compiled.

A line that is run is always answered for: its complaints are shown, or else the issue that ended
it. A line that is evaluated is not. Whoever decided that it is an expression has parsed it, but has
not resolved it, and the resolver may find it too deep. That complaint is the one thing that can
come of an evaluation and that is never shown: the line is passed over in silence.
-/

namespace Lox.Prompt

/-- Whether a message is a note about what happened behind the scenes. -/
def isNote : Message → Bool
  | .note _ => true
  | _ => false

/-- What a user sees who does not ask for notes. -/
def Reaction.shown (r : Reaction) : List Message := r.messages.filter fun m ↦ !isNote m

/-- The complaint that a text is nested too deeply for the resolver. -/
def tooHigh (line : String) : Diagnostic :=
  .atLine .resolution (scan line).firstToken.line "Too much nesting."

/-- How a line is answered that is evaluated. -/
structure Evaluates (s : Session) (line : String) : Prop where
  session : (react s line).2 = (s.evaluate line).2
  escaped : (react s line).1.escaped = (s.evaluate line).1.escaped?
  /-- What was printed on the way is followed by the value or by the issue. -/
  shown : (react s line).1.shown = (s.evaluate line).1.printed.map .line
    ++ (s.evaluate line).1.value?.toList.map .line ++ (s.evaluate line).1.issue?.toList.map .issue
  /-- Exactly one of four things comes of it. -/
  one : [(s.evaluate line).1.value?.isSome, (s.evaluate line).1.issue?.isSome,
    (s.evaluate line).1.escaped?.isSome, (s.evaluate line).1.compilation.tooDeep].count true = 1
  /-- The last one is that the expression is higher than the bound on nesting. -/
  deep : (s.evaluate line).1.compilation.tooDeep = true ↔
    ∃ e, (Analysis.parse (parseExpression s.host.nesting) line).result = some e ∧
      s.host.nesting < e.height
  /-- Then there is a complaint about it and nothing else, and nothing is shown at all. -/
  silent : (s.evaluate line).1.compilation.tooDeep = true →
    (s.evaluate line).1.compilation.diagnostics.items = #[tooHigh line] ∧
      (react s line).1.shown = [] ∧ (react s line).1.escaped = none ∧ (react s line).2 = s

/-- How a line is answered that is run. -/
structure Runs (s : Session) (line : String) : Prop where
  session : (react s line).2 = (s.run line).2
  escaped : (react s line).1.escaped = (s.run line).1.escaped?
  /-- What was printed on the way is followed by the complaints or by the issue. -/
  shown : (react s line).1.shown = (s.run line).1.printed.map .line
    ++ (s.run line).1.compilation.complaints ++ (s.run line).1.issue?.toList.map .issue
  /-- Exactly one of four things comes of it, and the last one needs no words. -/
  one : [(s.run line).1.compilation.hasErrors, (s.run line).1.issue?.isSome,
    (s.run line).1.escaped?.isSome, (s.run line).1.isOk].count true = 1
  complains : (s.run line).1.compilation.hasErrors = true ↔
    (s.run line).1.compilation.complaints ≠ []
  /-- With complaints nothing is executed. -/
  idle : (s.run line).1.compilation.hasErrors = true →
    (s.run line).1.printed = [] ∧ (react s line).2 = s

/-! ## What is shown -/

/-- Notes apart, a row of messages of another kind is shown as it is. -/
theorem filter_map {α : Type} {f : α → Message} (h : ∀ a, isNote (f a) = false) (items : List α) :
    ((items.map f).filter fun m ↦ !isNote m) = items.map f := by
  refine List.filter_eq_self.mpr fun m hm ↦ ?_
  obtain ⟨a, -, rfl⟩ := List.mem_map.mp hm
  rw [h, Bool.not_false]

theorem filter_nestingNotes {α : Type} (a : Analysis α) :
    (a.nestingNotes.filter fun m ↦ !isNote m) = [] := by
  rw [Analysis.nestingNotes]
  split <;> rfl

theorem shown_evaluation (e : Evaluation) : (e.messages.filter fun m ↦ !isNote m)
    = e.printed.map .line ++ e.value?.toList.map .line ++ e.issue?.toList.map .issue := by
  obtain ⟨compilation, execution⟩ := e
  rw [Evaluation.messages, List.filter_append, List.filter_append, filter_nestingNotes,
    filter_map fun _ ↦ rfl, List.nil_append, List.append_assoc]
  cases execution with
  | none => rfl
  | some x =>
    obtain ⟨result, printed, steps⟩ := x
    match result with
    | .ok _ | .error (.issue _) => rfl
    | .error (.desync _) | .error (.returning _) | .error .stuck | .error .exhausted => rfl

theorem shown_run (r : Run) : (r.messages.filter fun m ↦ !isNote m)
    = r.printed.map .line ++ r.compilation.complaints ++ r.issue?.toList.map .issue := by
  have hnotes : (r.compilation.notes.filter fun m ↦ !isNote m) = [] := by
    rw [Analysis.notes, List.filter_append, filter_nestingNotes]
    rfl
  rw [Run.messages, List.filter_append, List.filter_append, List.filter_append, List.filter_append,
    hnotes, filter_map fun _ ↦ rfl, Analysis.complaints, filter_map fun _ ↦ rfl, List.nil_append]
  cases r.issue? <;> simp [isNote]

/-! ## What comes of a line -/

/-- What is executed comes to its end, or there is an issue, or something else ended it. -/
theorem count_evaluation (compilation : Analysis Expr) (x : Execution String) :
    [(Evaluation.mk compilation (some x)).value?.isSome,
      (Evaluation.mk compilation (some x)).issue?.isSome,
      (Evaluation.mk compilation (some x)).escaped?.isSome, false].count true = 1 := by
  obtain ⟨result, printed, steps⟩ := x
  match result with
  | .ok _ | .error (.issue _) => rfl
  | .error (.desync _) | .error (.returning _) | .error .stuck | .error .exhausted => rfl

theorem count_run (compilation : Analysis (List Stmt)) (x : Execution Unit) :
    [false, (Run.mk compilation (some x)).issue?.isSome,
      (Run.mk compilation (some x)).escaped?.isSome,
      (Run.mk compilation (some x)).isOk].count true = 1 := by
  obtain ⟨result, printed, steps⟩ := x
  match result with
  | .ok _ | .error (.issue _) => rfl
  | .error (.desync _) | .error (.returning _) | .error .stuck | .error .exhausted => rfl

variable {s : Session} {line : String}

/-- A line that is a source text. -/
structure IsSource (line : String) : Prop where
  exit : Text.trim line ≠ "exit"
  finish : Text.trim line ≠ endOfInput
  blank : Text.trim line ≠ ""

theorem react_of_expression (h : IsSource line) (he : isExpression s.host.nesting line = true) :
    react s line = (⟨(s.evaluate line).1.messages, false, (s.evaluate line).1.escaped?⟩,
      (s.evaluate line).2) := by
  rw [react]
  simp only [if_neg h.exit, if_neg h.finish, if_neg h.blank, if_pos he]

theorem react_of_statements (h : IsSource line) (he : isExpression s.host.nesting line = false) :
    react s line = (⟨(s.run line).1.messages, false, (s.run line).1.escaped?⟩, (s.run line).2) := by
  rw [react]
  simp only [if_neg h.exit, if_neg h.finish, if_neg h.blank, he, if_neg Bool.false_ne_true]

theorem evaluates (h : IsSource line) (he : isExpression s.host.nesting line = true) :
    Evaluates s line := by
  have hreact := react_of_expression h he
  have hshown : (react s line).1.shown = (s.evaluate line).1.printed.map .line
      ++ (s.evaluate line).1.value?.toList.map .line
      ++ (s.evaluate line).1.issue?.toList.map .issue := by
    rw [hreact]
    exact shown_evaluation _
  obtain ⟨e, hparsed, ⟨hfits, findings, hcompiled⟩ | ⟨hhigh, findings, hcompiled⟩⟩ :=
    compileExpression_cases he
  · have hclean : (compileExpression s.host.nesting line).hasErrors = false := by
      rw [hcompiled]
      rfl
    have hevaluate := Session.evaluate_of_clean hclean (by rw [hcompiled])
    have hdeep : (s.evaluate line).1.compilation.tooDeep = false := by rw [hevaluate, hcompiled]
    refine ⟨by rw [hreact], by rw [hreact], hshown, ?_, ?_, ?_⟩
    · rw [hdeep, hevaluate]
      exact count_evaluation _ _
    · rw [hdeep]
      refine ⟨fun h ↦ absurd h Bool.false_ne_true, ?_⟩
      rintro ⟨e', he', hhigh⟩
      obtain rfl := Option.some.inj (hparsed.symm.trans he')
      exact absurd hfits (Nat.not_le_of_lt hhigh)
    · rw [hdeep]
      exact fun h ↦ absurd h Bool.false_ne_true
  · have herrors : (compileExpression s.host.nesting line).hasErrors = true := by
      rw [hcompiled]
      rfl
    have hevaluate := Session.evaluate_of_errors herrors
    rw [hcompiled] at hevaluate
    refine ⟨by rw [hreact], by rw [hreact], hshown, ?_, ?_, fun _ ↦ ⟨?_, ?_, ?_, ?_⟩⟩
    · rw [hevaluate]
      rfl
    · rw [hevaluate]
      exact iff_of_true rfl ⟨e, hparsed, hhigh⟩
    · rw [hevaluate]
      rfl
    · rw [hshown, hevaluate]
      rfl
    · rw [hreact, hevaluate]
      rfl
    · rw [hreact, hevaluate]

theorem runs (h : IsSource line) (he : isExpression s.host.nesting line = false) :
    Runs s line := by
  have hreact := react_of_statements h he
  have hshown : (react s line).1.shown = (s.run line).1.printed.map .line
      ++ (s.run line).1.compilation.complaints ++ (s.run line).1.issue?.toList.map .issue := by
    rw [hreact]
    exact shown_run _
  have hcomplains : (s.run line).1.compilation.hasErrors = true ↔
      (s.run line).1.compilation.complaints ≠ [] := by
    simp [Analysis.hasErrors, Analysis.complaints, Diagnostics.hasErrors]
  refine ⟨by rw [hreact], by rw [hreact], hshown, ?_, hcomplains, fun herrors ↦ ?_⟩
  · cases hcompiled : (Lox.compile s.host.nesting line).hasErrors with
    | true =>
      rw [Session.run_of_errors hcompiled, hcompiled]
      rfl
    | false =>
      rw [Session.run_of_clean hcompiled, hcompiled]
      exact count_run _ _
  · cases hcompiled : (Lox.compile s.host.nesting line).hasErrors with
    | true =>
      rw [hreact, Session.run_of_errors hcompiled]
      exact ⟨rfl, rfl⟩
    | false =>
      rw [Session.run_of_clean hcompiled, hcompiled] at herrors
      exact absurd herrors Bool.false_ne_true

/-! ## Every line -/

/-- The conversation goes on after every line that is a source text. The line is run, and then all
is told that came of it; or it is evaluated, and then all is told unless the expression is higher
than the bound on nesting, of which nothing is told. Something else than an issue ends an execution
only if a distance does not fit, or a loop makes more rounds than the host admits. -/
theorem react_answers (host : Host) (earlier : List Command) (line : String) (h : IsSource line) :
    (react ((Session.start host).serveAll earlier) line).1.ends = false ∧
    (isExpression host.nesting line = true →
      Evaluates ((Session.start host).serveAll earlier) line) ∧
    (isExpression host.nesting line = false → Runs ((Session.start host).serveAll earlier) line) ∧
    ∀ i, (react ((Session.start host).serveAll earlier) line).1.escaped = some i →
      i = .exhausted ∨ ∃ desync, i = .desync desync := by
  have hhost : ((Session.start host).serveAll earlier).host = host := Session.host_serveAll ..
  have hescaped : ∀ r i, ((Session.start host).serveAll earlier).escaped? r = some i →
      i = .exhausted ∨ ∃ desync, i = .desync desync := by
    intro r i hi
    obtain ⟨μ, hs, hexcused⟩ := Lexical.exists_corresponds_before host earlier r
    exact (Lexical.escaped_of_serving hs hexcused hi).imp_right fun ⟨x, hx, _⟩ ↦ ⟨_, hx⟩
  cases he : isExpression host.nesting line with
  | true =>
    rw [← hhost] at he
    have hreact := react_of_expression h he
    refine ⟨by rw [hreact], fun _ ↦ evaluates h he, fun h ↦ absurd h.symm Bool.false_ne_true, ?_⟩
    rw [hreact]
    exact hescaped (.evaluate line)
  | false =>
    rw [← hhost] at he
    have hreact := react_of_statements h he
    refine ⟨by rw [hreact], fun h ↦ absurd h Bool.false_ne_true, fun _ ↦ runs h he, ?_⟩
    rw [hreact]
    exact hescaped (.run line)

/-- A line that assigns to a variable of an earlier line. -/
theorem react_answers_assignment :
    IsSource "a = nil" ∧
    (react ((Session.start ⟨none, fun _ ↦ 0, 60, 10⟩).serveAll [.run "var a;"]) "a = nil").1.ends
      = false ∧
    (isExpression 60 "a = nil" = true →
      Evaluates ((Session.start ⟨none, fun _ ↦ 0, 60, 10⟩).serveAll [.run "var a;"]) "a = nil") ∧
    (isExpression 60 "a = nil" = false →
      Runs ((Session.start ⟨none, fun _ ↦ 0, 60, 10⟩).serveAll [.run "var a;"]) "a = nil") ∧
    ∀ i, (react ((Session.start ⟨none, fun _ ↦ 0, 60, 10⟩).serveAll [.run "var a;"])
      "a = nil").1.escaped = some i → i = .exhausted ∨ ∃ desync, i = .desync desync :=
  have hsource : IsSource "a = nil" := ⟨by decide, by decide, by decide⟩
  ⟨hsource, react_answers ⟨none, fun _ ↦ 0, 60, 10⟩ [.run "var a;"] "a = nil" hsource⟩

end Lox.Prompt
