import Lox.Proofs.Recovery.Exchange
import Lox.Proofs.Recovery.Program

/-!
# A missing semicolon

A statement that lacks its semicolon is given up at the token behind it. If that token begins a
statement, it is a place to go on. But recovery drops one token, whatever it is, before it looks for
a place to go on, so it drops that very token, and with it the statement that the token begins.

What is complained about follows from what the statement would have been with its semicolon: the
parser does the same up to there, since no expression goes on with a token that begins a statement.
-/

namespace Lox

/-- What a statement lacks without its semicolon, if that is what it ends with. -/
def Stmt.lacking? : Stmt → Option String
  | .var .. => some "';' after variable declaration"
  | .print _ => some "';' after value"
  | .expression _ => some "';' after expression"
  | _ => none

namespace Parser

variable {α : Type} {input wider : Input} {nesting : Nat} {stop next : Token} {more : List Token}
  {least : Nat}

/-- If the first parser reads up to the end a statement that ends in a semicolon, and the last token
is `stop`, then the second one misses the semicolon if there is `next` instead. The statement takes
at least so many tokens. -/
def Misses (stop next : Token) (more : List Token) (least : Nat) (p q : Parse Stmt) : Prop :=
  ∀ s st s' what, p s = .ok st s' → s'.rest = [] → st.lacking? = some what →
    least ≤ s.rest.length ∧ ∀ ts, s.rest = ts ++ [stop] →
      q { s with rest := ts ++ next :: more } = .error .fault
        { s' with rest := next :: more, errors := (next, .expected what) :: s'.errors }

/-- A parser that does not return a statement that ends in a semicolon. -/
def Compound (p : Parse Stmt) : Prop :=
  ∀ s, Ends p s (fun st _ ↦ st.lacking? = none) fun _ _ ↦ True

namespace Compound

variable {p : Parse α} {f : α → Parse Stmt}

theorem tooDeep : Compound Parser.tooDeep := fun _ ↦ trivial

theorem pure {st : Stmt} (h : st.lacking? = none) : Compound (Pure.pure st) := fun _ ↦ h

theorem skip (h : ∀ a, Compound (f a)) : Compound (p >>= f) := fun _ ↦ Ends.skip fun a s ↦ h a s

theorem map {g : α → Stmt} (h : ∀ a, (g a).lacking? = none) : Compound (g <$> p) := by
  rw [← bind_pure_comp]
  exact skip fun a ↦ pure (h a)

theorem misses {p q : Parse Stmt} (h : Compound p) : Misses stop next more least p q := by
  intro s st s' what hp _ hlacking
  have hnone : st.lacking? = none := (h s).of_ok hp
  rw [hnone] at hlacking
  cases hlacking

/-! ## Statements that end otherwise -/

theorem classDeclaration : ∀ nesting, Compound (Parser.classDeclaration input nesting)
  | 0 => tooDeep
  | nesting + 1 => by
    rw [Parser.classDeclaration]
    have hrest : ∀ name superclass, Compound (do
        let _ ← expect input .leftBrace "'\x7b' before class body"
        let methods ← many (fun k ↦ decide (k = .rightBrace))
          (Parser.function input "method" nesting) input.size []
        let _ ← expect input .rightBrace "'\x7d' after class body"
        return Stmt.class name superclass methods) :=
      fun _ _ ↦ skip fun _ ↦ skip fun _ ↦ skip fun _ ↦ pure rfl
    refine skip fun name ↦ skip fun less? ↦ ?_
    cases less? with
    | none => exact hrest name none
    | some _ => exact skip (hrest name)

theorem returnStatement {keyword : Token} :
    ∀ nesting, Compound (Parser.returnStatement input keyword nesting)
  | 0 => tooDeep
  | nesting + 1 => by
    rw [Parser.returnStatement]
    refine skip fun s ↦ ?_
    split
    · exact skip fun _ ↦ skip fun _ ↦ skip fun _ ↦ pure rfl
    · exact skip fun _ ↦ skip fun _ ↦ pure rfl

theorem forStatement : ∀ nesting, Compound (Parser.forStatement input nesting)
  | 0 => tooDeep
  | nesting + 1 => by
    rw [Parser.forStatement]
    have hrest : ∀ initializer : Option Stmt, Compound (do
        let condition ← expressionUnless input .semicolon nesting
        let _ ← expect input .semicolon "';' after loop condition"
        let increment ← expressionUnless input .rightParen nesting
        let _ ← expect input .rightParen "')' after for clauses"
        return Stmt.forLoop initializer condition increment (← Parser.statement input nesting)) :=
      fun _ ↦ skip fun _ ↦ skip fun _ ↦ skip fun _ ↦ skip fun _ ↦ skip fun _ ↦ pure rfl
    refine skip fun _ ↦ skip fun t ↦ ?_
    split
    · exact skip fun _ ↦ hrest none
    · exact skip fun _ ↦ skip hrest
    · exact skip hrest

end Compound

theorem expect_eq_ok {kind : Kind} {what : String} {t : Token} {s s' : State}
    (h : expect input kind what s = .ok t s') :
    s = { s' with rest := t :: s'.rest } ∧ t.kind = kind := by
  obtain ⟨rest, functions, errors⟩ := s
  obtain ⟨t?, s₁, haccept, hexpect⟩ := bind_eq_ok h
  cases rest with
  | nil => cases haccept; cases hexpect
  | cons u rest =>
    by_cases hu : u.kind = kind
    · rw [accept, acceptIf_eq_some (decide_eq_true hu)] at haccept
      cases haccept
      cases hexpect
      exact ⟨rfl, hu⟩
    · rw [accept, acceptIf_eq_none fun _ h ↦ by cases h; exact decide_eq_false hu] at haccept
      cases haccept
      cases hexpect

theorem expect_eq_error {kind : Kind} {what : String} {t : Token} (ht : t.kind ≠ kind)
    (rest : List Token) (functions : Nat) (errors : List (Token × SyntaxError)) :
    expect input kind what ⟨t :: rest, functions, errors⟩
      = .error .fault ⟨t :: rest, functions, (t, .expected what) :: errors⟩ := by
  have haccept : accept kind ⟨t :: rest, functions, errors⟩
      = .ok none ⟨t :: rest, functions, errors⟩ :=
    acceptIf_eq_none fun _ h ↦ by cases h; exact decide_eq_false ht
  exact bind_of_ok haccept

namespace Misses

variable {p q : Parse α} {f g : α → Parse Stmt}

theorem mono {fewer : Nat} {p q : Parse Stmt} (h : Misses stop next more least p q)
    (hle : fewer ≤ least) : Misses stop next more fewer p q := by
  intro s st s' what hp hs' hlacking
  obtain ⟨hlength, hmisses⟩ := h s st s' what hp hs' hlacking
  exact ⟨Nat.le_trans hle hlength, hmisses⟩

/-- Where the semicolon is asked for. -/
theorem last {st : Stmt} {what : String} (hlacking : st.lacking? = some what)
    (hnext : next.kind ≠ .semicolon) : Misses stop next more 1 (do
      let _ ← expect input .semicolon what
      return st) (do
      let _ ← expect wider .semicolon what
      return st) := by
  intro s st' s' what' h hs' hlacking'
  obtain ⟨t, s₁, hexpect, hpure⟩ := bind_eq_ok h
  cases hpure
  obtain rfl : what = what' := Option.some.inj (hlacking.symm.trans hlacking')
  obtain ⟨rfl, -⟩ := expect_eq_ok hexpect
  refine ⟨Nat.succ_le_succ (Nat.zero_le _), fun ts hts ↦ ?_⟩
  -- The semicolon is the last token, so there is none before it.
  obtain rfl : ts = [] := by
    have hlength := congrArg List.length hts
    rw [hs', List.length_append] at hlength
    exact List.length_eq_zero_iff.mp (by simpa using hlength.symm)
  exact bind_of_error (expect_eq_error hnext more _ _)

/-- What comes before does not see the row that follows. -/
theorem bind {first : Nat} (hp : Exchanges [stop] (next :: more) first p q)
    (hf : ∀ a, Misses stop next more (least + 1) (f a) (g a)) :
    Misses stop next more (first + least + 1) (p >>= f) (q >>= g) := by
  intro s st s' what h hs' hlacking
  obtain ⟨a, s₁, hps, hfa⟩ := bind_eq_ok h
  obtain ⟨hsuffix, hlength, hexchange⟩ := hp s a s₁ hps
  obtain ⟨hleast, hmisses⟩ := hf a s₁ st s' what hfa hs' hlacking
  refine ⟨by omega, fun ts hts ↦ ?_⟩
  have hrest : s₁.rest ≠ [] := List.ne_nil_of_length_pos (by omega)
  rw [hts] at hsuffix
  obtain ⟨us, hus, -⟩ := (List.suffix_concat_iff.mp hsuffix).resolve_left hrest
  exact (bind_of_ok (hexchange ts us hts hus)).trans (hmisses us hus)

theorem after (hp : Exchanges [stop] (next :: more) 0 p q)
    (hf : ∀ a, Misses stop next more (least + 1) (f a) (g a)) :
    Misses stop next more (least + 1) (p >>= f) (q >>= g) := (bind hp hf).mono (by omega)

theorem advance {p q : Parse Stmt} (h : Misses stop next more (least + 1) p q) :
    Misses stop next more (least + 2) (Parser.advance >>= fun _ ↦ p)
      (Parser.advance >>= fun _ ↦ q) := by
  rintro ⟨rest, functions, errors⟩ st s' what hp hs' hlacking
  obtain ⟨hlength, hmisses⟩ := h ⟨rest.tail, functions, errors⟩ st s' what hp hs' hlacking
  have htail : least + 1 ≤ rest.tail.length := hlength
  rw [List.length_tail] at htail
  have hall : least + 2 ≤ rest.length := by omega
  refine ⟨hall, fun ts hts ↦ ?_⟩
  obtain rfl : rest = ts ++ [stop] := hts
  cases ts with
  | nil => exact absurd htail (Nat.not_succ_le_zero least)
  | cons t ts => exact hmisses ts rfl

/-- A statement of at least two tokens begins with the same token. -/
theorem peek {f g : Token → Parse Stmt} (h : ∀ t, Misses stop next more 2 (f t) (g t)) :
    Misses stop next more 2 (Parser.peek input >>= f) (Parser.peek wider >>= g) := by
  rintro ⟨rest, functions, errors⟩ st s' what hp hs' hlacking
  obtain ⟨hlength, hmisses⟩ := h (rest.headD input.finish) _ st s' what hp hs' hlacking
  refine ⟨hlength, fun ts hts ↦ ?_⟩
  obtain rfl : rest = ts ++ [stop] := hts
  cases ts with
  | nil => exact absurd hlength (by simp)
  | cons t ts => exact hmisses (t :: ts) rfl

end Misses

/-! ## Statements that end in a semicolon -/

section Statements

variable (hstop : stop.kind = .semicolon) (hnext : next.kind.startsStatement = true)
  (hfinish : input.finish.kind = .eof) (hsize : input.size ≤ wider.size)

include hnext in
theorem ne_semicolon_of_startsStatement : next.kind ≠ .semicolon := by
  intro hsemicolon
  rw [hsemicolon] at hnext
  cases hnext

include hstop hnext hfinish hsize in
theorem exchanges_expression (nesting : Nat) : Exchanges [stop] (next :: more) 1
    (Parser.expression input nesting) (Parser.expression wider nesting) := by
  have hone : Closing [stop] := ⟨stop, [], rfl, by rw [hstop]; rfl⟩
  have hother : Closing (next :: more) := ⟨next, more, rfl, by
    rw [Kind.endsExpression, hnext, Bool.or_true]⟩
  exact (ExchangesExpressions.of_nesting hone hother hfinish hsize nesting).expression

include hstop hnext hfinish hsize in
theorem misses_expressionStatement : ∀ nesting, Misses stop next more 2
    (expressionStatement input nesting) (expressionStatement wider nesting)
  | 0 => Compound.tooDeep.misses
  | nesting + 1 => by
    rw [expressionStatement, expressionStatement]
    exact .bind (exchanges_expression hstop hnext hfinish hsize nesting) fun value ↦
      .last rfl (ne_semicolon_of_startsStatement hnext)

include hstop hnext hfinish hsize in
theorem misses_varDeclaration : ∀ nesting, Misses stop next more 1
    (varDeclaration input nesting) (varDeclaration wider nesting)
  | 0 => Compound.tooDeep.misses
  | nesting + 1 => by
    have hone : Closing [stop] := ⟨stop, [], rfl, by rw [hstop]; rfl⟩
    have hother : Closing (next :: more) := ⟨next, more, rfl, by
      rw [Kind.endsExpression, hnext, Bool.or_true]⟩
    rw [varDeclaration, varDeclaration]
    have hrest : ∀ (name : Token) (initializer : Option Expr), Misses stop next more 1 (do
        let _ ← expect input .semicolon "';' after variable declaration"
        return Stmt.var name initializer) (do
        let _ ← expect wider .semicolon "';' after variable declaration"
        return Stmt.var name initializer) :=
      fun _ _ ↦ .last rfl (ne_semicolon_of_startsStatement hnext)
    have hequal : Exchanges [stop] (next :: more) 0 (accept .equal) (accept .equal) :=
      .accept hone hother rfl
    have hname : Exchanges [stop] (next :: more) 0 (expect input .identifier "variable name")
      (expect wider .identifier "variable name") := .expect hone hother rfl
    refine .after hname fun name ↦ .after hequal fun equals? ↦ ?_
    cases equals? with
    | none => exact hrest name none
    | some _ =>
      have hexpression : Exchanges [stop] (next :: more) 1 (Parser.expression input nesting)
          (Parser.expression wider nesting) :=
        exchanges_expression hstop hnext hfinish hsize nesting
      exact .after (.map (hexpression.mono (Nat.zero_le 1))) (hrest name)

include hstop hnext hfinish hsize in
theorem misses_statement : ∀ nesting, Misses stop next more 2
    (Parser.statement input nesting) (Parser.statement wider nesting)
  | 0 => Compound.tooDeep.misses
  | nesting + 1 => by
    rw [Parser.statement, Parser.statement]
    refine .peek fun t ↦ ?_
    split
    · exact (Compound.skip fun _ ↦ .forStatement nesting).misses
    · exact (Compound.skip fun _ ↦ .skip fun _ ↦ .skip fun _ ↦ .skip fun _ ↦ .skip fun _ ↦
        .pure rfl).misses
    · refine (Compound.skip fun _ ↦ .skip fun _ ↦ .skip fun _ ↦ .skip fun _ ↦ .skip fun _ ↦
        .skip fun else? ↦ ?_).misses
      cases else? with
      | none => exact .pure rfl
      | some _ => exact .skip fun _ ↦ .pure rfl
    · exact .advance (.after ((exchanges_expression hstop hnext hfinish hsize nesting).mono
        (Nat.zero_le 1)) fun value ↦ .last rfl (ne_semicolon_of_startsStatement hnext))
    · exact (Compound.skip fun _ ↦ .returnStatement nesting).misses
    · exact (Compound.skip fun _ ↦ .map fun _ ↦ rfl).misses
    · exact misses_expressionStatement hstop hnext hfinish hsize nesting

include hstop hnext hfinish hsize in
theorem misses_attempt (nesting : Nat) : Misses stop next more 2
    (attempt input nesting) (attempt wider nesting) := by
  rw [attempt, attempt]
  refine .peek fun t ↦ ?_
  split
  · exact .advance (misses_varDeclaration hstop hnext hfinish hsize nesting)
  · exact (Compound.skip fun _ ↦ .classDeclaration nesting).misses
  · exact (Compound.skip fun _ ↦ .map fun _ ↦ rfl).misses
  · exact misses_statement hstop hnext hfinish hsize nesting

end Statements

/-! ## The statement that is given up -/

/-- A program that is one statement is read by its first declaration. -/
theorem attempt_of_parseProgram {finish : Token} (hfinish : finish.kind = .eof)
    {tokens : List Token} {st : Stmt} (hne : tokens ≠ [])
    (h : parseProgram nesting tokens finish = ⟨.ok [st], []⟩) :
    ∃ n, nesting = n + 1 ∧
      attempt ⟨finish, tokens.length + 1⟩ n ⟨tokens, 0, []⟩ = .ok st ⟨[], 0, []⟩ := by
  obtain ⟨read, hmany, hsome, hread⟩ := declarations_of_parseProgram hfinish h
  obtain ⟨st?, s₁, new, hdeclaration, hnew, rfl⟩ := many_eq_ok hne hmany
  obtain ⟨st', rfl⟩ := Option.isSome_iff_exists.mp (hsome st? List.mem_cons_self)
  obtain ⟨rfl, hempty⟩ := List.cons.inj hread
  -- None of the others is given up either, so there are no others.
  obtain rfl : new = [] := by
    cases new with
    | nil => rfl
    | cons other new =>
      obtain ⟨st', rfl⟩ := Option.isSome_iff_exists.mp (hsome other (by simp))
      cases hempty
  have hs₁ : s₁ = ⟨[], 0, []⟩ := by
    obtain ⟨t, ts, rfl⟩ := List.exists_cons_of_ne_nil hne
    by_cases hrest : s₁.rest = []
    · obtain ⟨_, functions, errors⟩ := s₁
      obtain rfl : _ = [] := hrest
      cases hnew
      rfl
    · obtain ⟨_, _, _, _, _, hcons⟩ := many_eq_ok hrest hnew
      cases hcons
  cases nesting with
  | zero => cases hdeclaration
  | succ n =>
    rw [declaration_eq_recovering, recovering] at hdeclaration
    cases hattempt : attempt ⟨finish, tokens.length + 1⟩ n ⟨tokens, 0, []⟩ with
    | ok a s₂ =>
      rw [hattempt] at hdeclaration
      cases hdeclaration
      exact ⟨n, rfl, hs₁ ▸ hattempt⟩
    | error abort s₂ =>
      rw [hattempt] at hdeclaration
      cases abort <;> cases hdeclaration

/-- A statement that lacks only its semicolon, with a token behind it that begins a statement: there
is a complaint about that token, and the token is dropped. The parser goes on at the next place
where a statement may begin. So even if what is behind is a program, it is not what is read. -/
theorem parseProgram_missing {first second last : Token} (hfirst : first.kind = .eof)
    (hsecond : second.kind = .eof) (hlast : last.kind = .eof) {before bad behind : List Token}
    {program : List Stmt} {st : Stmt} {what : String}
    (hbefore : parseProgram nesting before first = ⟨.ok program, []⟩)
    (hstop : stop.kind = .semicolon)
    (hbad : parseProgram nesting (bad ++ [stop]) second = ⟨.ok [st], []⟩)
    (hlacking : st.lacking? = some what) (hnext : next.kind.startsStatement = true) :
    parseProgram nesting (before ++ bad ++ next :: behind) last
        = ⟨(parseProgram nesting (resume (next :: behind)) last).result.map (program ++ ·),
          (next, .expected what) :: (parseProgram nesting (resume (next :: behind)) last).errors⟩ ∧
      ∀ program', parseProgram nesting (next :: behind) last = ⟨.ok program', []⟩ →
        parseProgram nesting (before ++ bad ++ next :: behind) last
          ≠ ⟨.ok (program ++ program'), [(next, .expected what)]⟩ := by
  have hrow : bad ++ [stop] ≠ [] :=
    List.append_ne_nil_of_right_ne_nil bad (List.cons_ne_nil stop [])
  have hshorter : (resume (next :: behind)).length < (next :: behind).length :=
    Nat.lt_succ_of_le (resume_suffix_tail (next :: behind)).length_le
  obtain ⟨n, rfl, hattempt⟩ := attempt_of_parseProgram hsecond hrow hbad
  have hmisses : ∀ size, (bad ++ [stop]).length < size →
      Misses stop next behind 2 (attempt ⟨second, (bad ++ [stop]).length + 1⟩ n)
        (attempt ⟨last, size⟩ n) := by
    intro size hsize
    refine misses_attempt hstop hnext ?_ ?_ n
    · exact hsecond
    · exact hsize
  have hlength : 2 ≤ (bad ++ [stop]).length :=
    (hmisses _ (Nat.lt_succ_self _) _ st _ what hattempt rfl hlacking).1
  have hbadLength : (bad ++ [stop]).length = (bad ++ next :: behind).length - behind.length := by
    simp only [List.length_append, List.length_cons, List.length_nil]
    omega
  have hgivenUp : ∀ size, (bad ++ next :: behind).length < size →
      declaration ⟨last, size⟩ (n + 1) ⟨bad ++ next :: behind, 0, []⟩
        = .ok none ⟨resume (next :: behind), 0, [(next, .expected what)]⟩ := by
    intro size hsize
    have hfault := (hmisses size (by omega) _ st _ what hattempt rfl hlacking).2 bad rfl
    have hfault' : attempt ⟨last, size⟩ n ⟨bad ++ next :: behind, 0, []⟩
      = .error .fault ⟨next :: behind, 0, [(next, .expected what)]⟩ := hfault
    rw [declaration_eq_recovering, recovering, hfault']
  have helse : avoids .else (bad ++ next :: behind) := by
    have hnotElse := notElse_of_parseProgram hsecond hbad
    cases bad with
    | nil => exact absurd hlength (by simp)
    | cons t ts => exact avoids_cons (hnotElse t rfl)
  have hwhole := parseProgram_givenUp hfirst hlast hbefore helse
    (by rw [List.length_append]; omega) hgivenUp
  rw [List.append_assoc, hwhole]
  refine ⟨rfl, fun program' hbehind hboth ↦ ?_⟩
  -- The tokens that are left would be spelled like all those that are behind, but they are fewer.
  have hleft : parseProgram (n + 1) (resume (next :: behind)) last = ⟨.ok program', []⟩ := by
    cases hparsed : parseProgram (n + 1) (resume (next :: behind)) last with
    | mk result errors =>
      rw [hparsed, Parsed.mk.injEq] at hboth
      obtain ⟨hresult, herrors⟩ := hboth
      obtain rfl : errors = [] := (List.cons.inj herrors).2
      cases result with
      | error abort => cases hresult
      | ok left => rw [List.append_cancel_left (Except.ok.inj hresult)]
  have hspells := (wellFormed_of_parseProgram hlast hleft).2.length_eq
  have hspells' := (wellFormed_of_parseProgram hlast hbehind).2.length_eq
  omega

/-- Of `print nil print true; print false;` only the last statement is left. -/
theorem parseProgram_missing_print :
    parseProgram 20
        [⟨.print, "print", .nil, 1⟩, ⟨.nil, "nil", .nil, 1⟩,
          ⟨.print, "print", .nil, 1⟩, ⟨.true, "true", .nil, 1⟩, ⟨.semicolon, ";", .nil, 1⟩,
          ⟨.print, "print", .nil, 1⟩, ⟨.false, "false", .nil, 1⟩, ⟨.semicolon, ";", .nil, 1⟩]
        ⟨.eof, "", .nil, 1⟩
      = ⟨.ok [.print (.literal (.bool false))],
        [(⟨.print, "print", .nil, 1⟩, .expected "';' after value")]⟩ := by
  have hbefore : parseProgram 20 [] ⟨.eof, "", .nil, 1⟩ = ⟨.ok [], []⟩ := rfl
  have hbad : parseProgram 20 ([⟨.print, "print", .nil, 1⟩, ⟨.nil, "nil", .nil, 1⟩]
      ++ [⟨.semicolon, ";", .nil, 1⟩]) ⟨.eof, "", .nil, 1⟩
    = ⟨.ok [.print (.literal .nil)], []⟩ := rfl
  exact (parseProgram_missing rfl rfl rfl hbefore rfl hbad rfl rfl).1

/-- The statement `print true;` is read by itself, and `print nil;` is one statement. But what is
read of `print nil print true;` is nothing. -/
theorem parseProgram_drops_statement :
    parseProgram 20 [⟨.print, "print", .nil, 1⟩, ⟨.nil, "nil", .nil, 1⟩,
      ⟨.semicolon, ";", .nil, 1⟩] ⟨.eof, "", .nil, 1⟩ = ⟨.ok [.print (.literal .nil)], []⟩ ∧
    parseProgram 20 [⟨.print, "print", .nil, 1⟩, ⟨.true, "true", .nil, 1⟩,
      ⟨.semicolon, ";", .nil, 1⟩] ⟨.eof, "", .nil, 1⟩
        = ⟨.ok [.print (.literal (.bool true))], []⟩ ∧
    parseProgram 20 [⟨.print, "print", .nil, 1⟩, ⟨.nil, "nil", .nil, 1⟩,
      ⟨.print, "print", .nil, 1⟩, ⟨.true, "true", .nil, 1⟩, ⟨.semicolon, ";", .nil, 1⟩]
        ⟨.eof, "", .nil, 1⟩
      ≠ ⟨.ok [.print (.literal (.bool true))],
        [(⟨.print, "print", .nil, 1⟩, .expected "';' after value")]⟩ := by
  refine ⟨rfl, rfl, ?_⟩
  have hparse : parseProgram 20 [⟨.print, "print", .nil, 1⟩, ⟨.nil, "nil", .nil, 1⟩,
      ⟨.print, "print", .nil, 1⟩, ⟨.true, "true", .nil, 1⟩, ⟨.semicolon, ";", .nil, 1⟩]
        ⟨.eof, "", .nil, 1⟩
      = ⟨.ok [], [(⟨.print, "print", .nil, 1⟩, .expected "';' after value")]⟩ := rfl
  rw [hparse]
  intro h
  cases h

end Parser

end Lox
