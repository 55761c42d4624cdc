import Lox.Proofs.Syntax.Depth

/-!
# Parsing comes to an end

Whatever the tokens are, a program is parsed to its end, an expression is parsed or complained
about, and a declaration anywhere in between ends with the parser further on. Three facts about
the functions of the grammar make that up: none runs out of nested calls, none goes back, and none
leaves a function that it did not enter.

## Places

A state is at a place in the row of all tokens, the one that marks the end included. What is left
of the tokens says which: the parser never has tokens before it that are not the last ones of the
row. So the token it looks at is always one of the row.
-/

namespace Lox.Parser

variable {α β : Type} {s s' : State} {input : Input} {finish : Token} {tokens : List Token}
  {len nesting : Nat}

/-- Where in the row of all tokens a state is. -/
def State.index (tokens : List Token) (s : State) : Nat := tokens.length - s.rest.length

/-- The next token is the one of the row at the place of the state. -/
theorem getElem?_index (hs : s.rest <:+ tokens) :
    (tokens ++ [finish])[s.index tokens]? = some (s.rest.headD finish) := by
  obtain ⟨before, hbefore⟩ := hs
  have hindex : s.index tokens = before.length := by
    rw [State.index, ← hbefore, List.length_append, Nat.add_sub_cancel_right]
  rw [hindex, ← hbefore, List.append_assoc, List.getElem?_append_right (Nat.le_refl _),
    Nat.sub_self]
  cases s.rest <;> rfl

/-- Less is left, so the place is a later one. -/
theorem index_lt_index (hs : s.rest <:+ tokens) (hlt : s'.rest.length < s.rest.length) :
    s.index tokens < s'.index tokens := by
  have hle := hs.length_le
  rw [State.index, State.index]
  omega

/-! ## The functions of the grammar -/

/-- The functions of the parser, one for each part of a program that it reads. -/
inductive Part where
  | expression | assignment | binary (level : Level) | unary | call | callArguments (callee : Expr)
  | primary | expressionUnless (stop : Kind)
  | expressionStatement | varDeclaration | returnStatement (keyword : Token)
  | functionHead (what : String)
  | declaration | classDeclaration | function (what : String) | statement | forStatement | block
  | program | wholeExpression

/-- Reads a part of a program and forgets it. -/
def Part.parse (input : Input) (nesting : Nat) : Part → Parse Unit
  | expression => (fun _ ↦ ()) <$> Parser.expression input nesting
  | assignment => (fun _ ↦ ()) <$> Parser.assignment input nesting
  | binary level => (fun _ ↦ ()) <$> Parser.binary input nesting level
  | unary => (fun _ ↦ ()) <$> Parser.unary input nesting
  | call => (fun _ ↦ ()) <$> Parser.call input nesting
  | callArguments callee => (fun _ ↦ ()) <$> Parser.callArguments input nesting callee
  | primary => (fun _ ↦ ()) <$> Parser.primary input nesting
  | expressionUnless stop => (fun _ ↦ ()) <$> Parser.expressionUnless input stop nesting
  | expressionStatement => (fun _ ↦ ()) <$> Parser.expressionStatement input nesting
  | varDeclaration => (fun _ ↦ ()) <$> Parser.varDeclaration input nesting
  | returnStatement keyword => (fun _ ↦ ()) <$> Parser.returnStatement input keyword nesting
  | functionHead what => (fun _ ↦ ()) <$> Parser.functionHead input what
  | declaration => (fun _ ↦ ()) <$> Parser.declaration input nesting
  | classDeclaration => (fun _ ↦ ()) <$> Parser.classDeclaration input nesting
  | function what => (fun _ ↦ ()) <$> Parser.function input what nesting
  | statement => (fun _ ↦ ()) <$> Parser.statement input nesting
  | forStatement => (fun _ ↦ ()) <$> Parser.forStatement input nesting
  | block => (fun _ ↦ ()) <$> Parser.block input nesting
  | program => (fun _ ↦ ()) <$> Parser.program input nesting
  | wholeExpression => (fun _ ↦ ()) <$> Parser.wholeExpression input nesting

theorem progress_declaration (hfinish : input.finish.kind = .eof) :
    ∀ nesting, Progress input.finish input.size 0 (declaration input nesting)
  | 0 => .tooDeep
  | nesting + 1 => by
    rw [declaration_eq_recovering]
    exact .recovering (((AdvancesStatements.of_nesting hfinish nesting).attempt hfinish).mono
      (Nat.zero_le _))

theorem fits_program (hfinish : finish.kind = .eof) {size : Nat} (hlen : 16 * len + 14 ≤ nesting) :
    Fits len (Parser.program ⟨finish, size⟩ nesting) := by
  have h : FitsStatements ⟨finish, size⟩ nesting := .of_nesting hfinish nesting
  exact .bind (.many (h.declaration len hlen) _ _) fun _ ↦ .pure _

theorem fits_wholeExpression (hfinish : finish.kind = .eof) {size : Nat}
    (hlen : 16 * len + 11 ≤ nesting) :
    Fits len (Parser.wholeExpression ⟨finish, size⟩ nesting) := by
  have h : FitsExpressions ⟨finish, size⟩ nesting := fitsExpressions hfinish nesting
  refine .bind (h.expression len hlen) fun e ↦ .bind .check fun more ↦ ?_
  cases more with
  | true => exact .bind .fail fun _ ↦ .pure _
  | false => exact .bind (.pure _) fun _ ↦ .pure _

namespace Part

variable (part : Part)

theorem progress (hfinish : input.finish.kind = .eof) :
    Progress input.finish input.size 0 (part.parse input nesting) := by
  have hexpressions := advancesExpressions hfinish nesting
  have hstatements := AdvancesStatements.of_nesting hfinish nesting
  cases part with
  | expression => exact .map (hexpressions.expression.mono (Nat.zero_le _))
  | assignment => exact .map (hexpressions.assignment.mono (Nat.zero_le _))
  | binary level => exact .map ((hexpressions.binary level).mono (Nat.zero_le _))
  | unary => exact .map (hexpressions.unary.mono (Nat.zero_le _))
  | call => exact .map (hexpressions.call.mono (Nat.zero_le _))
  | callArguments callee => exact .map ((hexpressions.callArguments callee).mono (Nat.zero_le _))
  | primary => exact .map (hexpressions.primary.mono (Nat.zero_le _))
  | expressionUnless stop => exact .map (progress_expressionUnless hfinish)
  | expressionStatement =>
    exact .map ((progress_expressionStatement hfinish nesting).mono (Nat.zero_le _))
  | varDeclaration => exact .map ((progress_varDeclaration hfinish nesting).mono (Nat.zero_le _))
  | returnStatement keyword =>
    exact .map ((progress_returnStatement hfinish nesting).mono (Nat.zero_le _))
  | functionHead what => exact .map ((progress_functionHead what).mono (Nat.zero_le _))
  | declaration => exact .map (progress_declaration hfinish nesting)
  | classDeclaration => exact .map (hstatements.classDeclaration.mono (Nat.zero_le _))
  | function what => exact .map ((hstatements.function what).mono (Nat.zero_le _))
  | statement => exact .map (hstatements.statement.mono (Nat.zero_le _))
  | forStatement => exact .map (hstatements.forStatement.mono (Nat.zero_le _))
  | block => exact .map (hstatements.block.mono (Nat.zero_le _))
  | program => exact .map (progress_program hfinish)
  | wholeExpression => exact .map (progress_wholeExpression hfinish)

theorem fits (hfinish : input.finish.kind = .eof) (hlen : 16 * (len + 1) ≤ nesting) :
    Fits len (part.parse input nesting) := by
  have hexpressions := fitsExpressions hfinish nesting
  have hstatements := FitsStatements.of_nesting hfinish nesting
  cases part with
  | expression => exact .map (hexpressions.expression len (by omega))
  | assignment => exact .map (hexpressions.assignment len (by omega))
  | binary level => exact .map (hexpressions.binary level len (by omega))
  | unary => exact .map (hexpressions.unary len (by omega))
  | call => exact .map (hexpressions.call len (by omega))
  | callArguments callee => exact .map (hexpressions.callArguments callee len (by omega))
  | primary => exact .map (hexpressions.primary len (by omega))
  | expressionUnless stop => exact .map (fits_expressionUnless hfinish (by omega))
  | expressionStatement => exact .map (fits_expressionStatement hfinish (by omega))
  | varDeclaration => exact .map (fits_varDeclaration hfinish (by omega))
  | returnStatement keyword => exact .map (fits_returnStatement hfinish (by omega))
  | functionHead what => exact .map (fits_functionHead what)
  | declaration => exact .map (hstatements.declaration len (by omega))
  | classDeclaration => exact .map (hstatements.classDeclaration len (by omega))
  | function what => exact .map (hstatements.function what len (by omega))
  | statement => exact .map (hstatements.statement len (by omega))
  | forStatement => exact .map (hstatements.forStatement len (by omega))
  | block => exact .map (hstatements.block len (by omega))
  | program => exact .map (fits_program hfinish (by omega))
  | wholeExpression => exact .map (fits_wholeExpression hfinish (by omega))

theorem consumes (hfinish : input.finish.kind = .eof) (s : State) :
    Consumes (part.parse input nesting) s fun _ _ ↦ True := by
  have hexpressions := ReadsExpressions.of_nesting hfinish nesting
  have hstatements := ReadsStatements.of_nesting hfinish nesting
  cases part with
  | expression => exact .map (hexpressions.expression s) fun _ _ _ ↦ trivial
  | assignment => exact .map (hexpressions.assignment s) fun _ _ _ ↦ trivial
  | binary level => exact .map (hexpressions.binary level s) fun _ _ _ ↦ trivial
  | unary => exact .map (hexpressions.unary s) fun _ _ _ ↦ trivial
  | call => exact .map (hexpressions.call s) fun _ _ _ ↦ trivial
  | callArguments callee => exact .map (hexpressions.callArguments callee s) fun _ _ _ ↦ trivial
  | primary => exact .map (hexpressions.primary s) fun _ _ _ ↦ trivial
  | expressionUnless stop =>
    exact .map (reads_expressionUnless hfinish stop nesting s) fun _ _ _ ↦ trivial
  | expressionStatement =>
    exact .map (reads_expressionStatement hfinish false nesting s) fun _ _ _ ↦ trivial
  | varDeclaration =>
    exact .map (consumes_varDeclaration hfinish false nesting s) fun _ _ _ ↦ trivial
  | returnStatement keyword =>
    exact .map (consumes_returnStatement hfinish keyword nesting s) fun _ _ _ ↦ trivial
  | functionHead what => exact .map (consumes_functionHead what s) fun _ _ _ ↦ trivial
  | declaration => exact .map (hstatements.declaration s) fun _ _ _ ↦ trivial
  | classDeclaration => exact .map (hstatements.classDeclaration s) fun _ _ _ ↦ trivial
  | function what => exact .map (hstatements.function what s) fun _ _ _ ↦ trivial
  | statement => exact .map (hstatements.statement s) fun _ _ _ ↦ trivial
  | forStatement => exact .map (hstatements.forStatement s) fun _ _ _ ↦ trivial
  | block => exact .map (hstatements.block s) fun _ _ _ ↦ trivial
  | program => exact .map (consumes_program hfinish s) fun _ _ _ ↦ trivial
  | wholeExpression => exact .map (consumes_wholeExpression hfinish s) fun _ _ _ ↦ trivial

/-- However a part ends, the parser has not gone back, and it is inside of as many functions as
before. With enough nested calls, what ends a part early is a complaint. -/
theorem settles (hfinish : input.finish.kind = .eof) (hsize : s.rest.length < input.size) :
    Ends (part.parse input nesting) s
      (fun _ s' ↦ s'.rest <:+ s.rest ∧ s'.functions = s.functions)
      (fun abort s' ↦ s'.rest <:+ s.rest ∧ s'.functions = s.functions ∧
        (16 * (s.rest.length + 1) ≤ nesting → abort = .fault)) := by
  have hprogress : Progress input.finish input.size 0 (part.parse input nesting) :=
    part.progress hfinish
  have hconsumes : Consumes (part.parse input nesting) s fun _ _ ↦ True := part.consumes hfinish s
  refine Ends.intro (fun _ s' h ↦ ?_) fun abort s' h ↦ ?_
  · exact ⟨(Ends.of_ok (hprogress s hsize) h).1, (Ends.of_ok hconsumes h).1⟩
  · obtain ⟨hsuffix, hexhausted, _⟩ := Ends.of_error (hprogress s hsize) h
    refine ⟨hsuffix, (Ends.of_error hconsumes h).1, fun hnesting ↦ ?_⟩
    have hdeep := (Ends.of_error (part.fits hfinish hnesting s (Nat.le_refl _)) h).2
    cases abort with
    | fault => rfl
    | tooDeep => exact absurd rfl hdeep
    | exhausted => exact absurd rfl hexhausted

end Part

/-! ## Programs, expressions and declarations -/

/-- A declaration is never given up beyond itself. -/
theorem declaration_ne_fault : ∀ {nesting}, declaration input nesting s ≠ .error .fault s'
  | 0 => fun h ↦ by cases h
  | nesting + 1 => by
    rw [declaration_eq_recovering, recovering]
    split
    · exact fun h ↦ by cases h
    · exact fun h ↦ by cases h
    · rename_i hfault _
      exact fun h ↦ hfault (EStateM.Result.error.inj h).1

/-- Only an item can be complained about. -/
theorem many_ne_fault {stops : Kind → Bool} {item : Parse α}
    (hitem : ∀ s s', item s ≠ .error .fault s') :
    ∀ {bound : Nat} {read : List α} {s s' : State}, many stops item bound read s ≠ .error .fault s'
  | 0, _, _, _, h => by cases h
  | bound + 1, read, s, s', h => by
    rw [many, bind_of_ok (show check _ s = .ok _ s from rfl)] at h
    split at h
    · cases hfirst : item s with
      | ok a s₁ =>
        rw [bind_of_ok hfirst] at h
        exact many_ne_fault hitem h
      | error abort s₁ =>
        rw [bind_of_error hfirst] at h
        cases h
        exact hitem _ _ hfirst
    · cases h

theorem program_ne_fault : Parser.program input nesting s ≠ .error .fault s' := by
  intro h
  cases hmany : many (fun _ ↦ false) (declaration input nesting) input.size [] s with
  | ok declarations s₁ =>
    rw [Parser.program, bind_of_ok hmany] at h
    cases h
  | error abort s₁ =>
    rw [Parser.program, bind_of_error hmany] at h
    cases h
    exact many_ne_fault (fun _ _ ↦ declaration_ne_fault) hmany

/-- A program is read to its end. -/
theorem rest_eq_nil_of_program {program : List Stmt}
    (h : Parser.program input nesting s = .ok program s') : s'.rest = [] := by
  obtain ⟨declarations, s₁, hmany, hpure⟩ := bind_eq_ok h
  cases hpure
  exact rest_eq_nil_of_many hmany

/-- So is an expression. -/
theorem rest_eq_nil_of_wholeExpression {e : Expr}
    (h : wholeExpression input nesting s = .ok e s') : s'.rest = [] := by
  obtain ⟨e', s₁, _, h⟩ := bind_eq_ok h
  obtain ⟨more, s₂, hcheck, h⟩ := bind_eq_ok h
  cases hcheck
  cases hrest : s₁.rest with
  | nil =>
    rw [hrest] at h
    cases h
    exact hrest
  | cons t rest =>
    rw [hrest] at h
    cases h

/-- Parsing is total. On any row of tokens, and with sixteen nested calls for each of them and for
the end, a program is parsed to the end of the tokens; an expression is parsed, to the end as well,
or complained about; and a declaration that is parsed anywhere, or given up there, leaves the
parser further on unless it was at the end. The parser is inside of no function afterwards, or of
as many as before. No function of the grammar, with any number of nested calls and from any place in
the row, gets out of the row or goes back in it, and what it finds there is the token of the row at
that place. -/
theorem parse_total (tokens : List Token) {finish : Token} (hfinish : finish.kind = .eof)
    {nesting : Nat} (hnesting : 16 * (tokens.length + 1) ≤ nesting) :
    let input : Input := ⟨finish, tokens.length + 1⟩
    (∃ program s, Parser.program input nesting ⟨tokens, 0, []⟩ = .ok program s ∧
      s.rest = [] ∧ s.functions = 0) ∧
    ((∃ e s, wholeExpression input nesting ⟨tokens, 0, []⟩ = .ok e s ∧
        s.rest = [] ∧ s.functions = 0) ∨
      ∃ s, wholeExpression input nesting ⟨tokens, 0, []⟩ = .error .fault s ∧
        s.errors ≠ [] ∧ s.rest <:+ tokens ∧ s.functions = 0) ∧
    (∀ s : State, s.rest <:+ tokens →
      ∃ st? s', declaration input nesting s = .ok st? s' ∧ s'.rest <:+ s.rest ∧
        s'.functions = s.functions ∧ (s.rest ≠ [] → s.index tokens < s'.index tokens)) ∧
    ∀ (part : Part) (n : Nat) (s : State), s.rest <:+ tokens →
      (tokens ++ [finish])[s.index tokens]? = some (s.rest.headD finish) ∧
      Ends (part.parse input n) s
        (fun _ s' ↦ s'.rest <:+ s.rest ∧ s'.functions = s.functions)
        (fun abort s' ↦ s'.rest <:+ s.rest ∧ s'.functions = s.functions ∧
          (nesting ≤ n → abort = .fault)) := by
  intro input
  have hsettles : ∀ (part : Part) (n : Nat) (s : State), s.rest <:+ tokens →
      Ends (part.parse input n) s
        (fun _ s' ↦ s'.rest <:+ s.rest ∧ s'.functions = s.functions)
        (fun abort s' ↦ s'.rest <:+ s.rest ∧ s'.functions = s.functions ∧
          (nesting ≤ n → abort = .fault)) := by
    intro part n s hs
    have hle := hs.length_le
    refine Ends.mono (part.settles hfinish (Nat.lt_succ_of_le hle)) (fun _ _ h ↦ h) ?_
    exact fun _ s' ⟨hsuffix, hfunctions, hfault⟩ ↦
      ⟨hsuffix, hfunctions, fun hn ↦ hfault (by omega)⟩
  refine ⟨?_, ?_, fun s hs ↦ ?_, fun part n s hs ↦ ⟨getElem?_index hs, hsettles part n s hs⟩⟩
  · have hprogram := Ends.of_map (hsettles .program nesting ⟨tokens, 0, []⟩ List.suffix_rfl)
    cases h : Parser.program input nesting ⟨tokens, 0, []⟩ with
    | ok program s => exact ⟨program, s, rfl, rest_eq_nil_of_program h, (hprogram.of_ok h).2⟩
    | error abort s =>
      obtain ⟨_, _, hfault⟩ := hprogram.of_error h
      cases hfault (Nat.le_refl _)
      exact absurd h program_ne_fault
  · have hwhole := Ends.of_map (hsettles .wholeExpression nesting ⟨tokens, 0, []⟩ List.suffix_rfl)
    cases h : wholeExpression input nesting ⟨tokens, 0, []⟩ with
    | ok e s => exact .inl ⟨e, s, rfl, rest_eq_nil_of_wholeExpression h, (hwhole.of_ok h).2⟩
    | error abort s =>
      obtain ⟨hsuffix, hfunctions, hfault⟩ := hwhole.of_error h
      cases hfault (Nat.le_refl _)
      have herrors := (Ends.of_error (consumes_wholeExpression hfinish _) h).2.2 rfl
      exact .inr ⟨s, rfl, List.ne_nil_of_length_pos herrors, hsuffix, hfunctions⟩
  · have hdeclaration := Ends.of_map (hsettles .declaration nesting s hs)
    cases h : declaration input nesting s with
    | ok st? s' =>
      obtain ⟨hsuffix, hfunctions⟩ := hdeclaration.of_ok h
      refine ⟨st?, s', rfl, hsuffix, hfunctions, fun hrest ↦ index_lt_index hs ?_⟩
      have hadvances : AdvancesStatements input nesting := .of_nesting hfinish nesting
      have hends := hadvances.declaration s (Nat.lt_succ_of_le hs.length_le) hrest
      exact (Ends.of_ok hends h).2
    | error abort s' =>
      obtain ⟨_, _, hfault⟩ := hdeclaration.of_error h
      cases hfault (Nat.le_refl _)
      exact absurd h declaration_ne_fault

/-- What begins like a block with a class in it, and ends there, is parsed to its end. -/
theorem parse_total_unfinished :
    (Token.kind ⟨.eof, "", .nil, 1⟩ = .eof ∧ 16 * (3 + 1) ≤ 64) ∧
    ∃ program s, Parser.program ⟨⟨.eof, "", .nil, 1⟩, 4⟩ 64 ⟨[⟨.leftBrace, "\x7b", .nil, 1⟩,
        ⟨.class, "class", .nil, 1⟩, ⟨.rightParen, ")", .nil, 1⟩], 0, []⟩ = .ok program s ∧
      s.rest = [] ∧ s.functions = 0 :=
  ⟨⟨rfl, by decide⟩, (parse_total [⟨.leftBrace, "\x7b", .nil, 1⟩, ⟨.class, "class", .nil, 1⟩,
    ⟨.rightParen, ")", .nil, 1⟩] rfl (by decide)).1⟩

end Lox.Parser
