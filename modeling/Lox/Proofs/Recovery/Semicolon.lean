import Lox.Proofs.Recovery.Program

/-!
# One bad statement

A statement that is given up at one of its own tokens does not affect its neighbours. Up to that
token the parser has not looked at what follows, so it does what it does if nothing follows. Then it
skips tokens; and where the only semicolon of the statement is its last token, and no token in it
begins another statement, it skips to just behind that semicolon, wherever in the statement it
starts, be it at the semicolon itself.
-/

namespace Lox

namespace Parser

variable {nesting : Nat} {tokens : List Token}

/-- Tokens of which the only semicolon is the last one, and of which none begins a statement but
perhaps the first. Recovery that sets in among them ends behind them. -/
structure Confined (tokens : List Token) : Prop where
  closed : ∃ body stop, tokens = body ++ [stop] ∧ stop.kind = .semicolon ∧
    ∀ t ∈ body, t.kind ≠ .semicolon
  inner : ∀ t ∈ tokens.tail, t.kind.startsStatement = false

theorem Confined.ne_nil (h : Confined tokens) : tokens ≠ [] := by
  obtain ⟨body, stop, rfl, -⟩ := h.closed
  exact List.append_ne_nil_of_right_ne_nil body (List.cons_ne_nil stop [])

/-! ## Skipping to the semicolon -/

theorem skipFrom_semicolon {previous : Token} (h : previous.kind = .semicolon) (ts : List Token) :
    skipFrom previous ts = ts := by
  cases ts with
  | nil => rfl
  | cons t ts => exact if_pos (.inl h)

/-- Behind tokens that are neither semicolons nor the beginnings of statements comes a semicolon. -/
theorem skipFrom_confined {stop previous : Token} {body ts : List Token} (more : List Token)
    (hstop : stop.kind = .semicolon) (heq : previous :: ts = body ++ [stop])
    (hbody : ∀ t ∈ body, t.kind ≠ .semicolon)
    (hts : ∀ t ∈ ts, t.kind.startsStatement = false) : skipFrom previous (ts ++ more) = more := by
  induction ts generalizing previous body with
  | nil =>
    have hprevious : previous = stop := by simpa using congrArg List.getLast? heq
    rw [hprevious]
    exact skipFrom_semicolon hstop more
  | cons t ts ih =>
    cases body with
    | nil => cases heq
    | cons b body =>
      obtain ⟨rfl, htail⟩ := List.cons.inj heq
      rw [List.forall_mem_cons] at hbody hts
      have hskips : ¬ (previous.kind = .semicolon ∨ t.kind.startsStatement = true) := by
        rintro (hsemicolon | hstarts)
        · exact hbody.1 hsemicolon
        · exact Bool.false_ne_true (hts.1.symm.trans hstarts)
      exact (if_neg hskips).trans (ih htail hbody.2 hts.2)

/-- Recovery that sets in among confined tokens ends behind them. -/
theorem Confined.resume (h : Confined tokens) {rest : List Token} (hsuffix : rest <:+ tokens)
    (hrest : rest ≠ []) (more : List Token) : Parser.resume (rest ++ more) = more := by
  obtain ⟨body, stop, htokens, hstop, hbody⟩ := h.closed
  obtain ⟨t, ts, rfl⟩ := List.exists_cons_of_ne_nil hrest
  have hinner : ∀ u ∈ ts, u.kind.startsStatement = false := by
    obtain ⟨before, rfl⟩ := hsuffix
    refine fun u hu ↦ h.inner u ?_
    cases before with
    | nil => exact hu
    | cons b before => exact List.mem_append_right before (List.mem_cons_of_mem t hu)
  -- What is left ends with the semicolon as well.
  rw [htokens] at hsuffix
  obtain ⟨ws, hws, hbefore⟩ := (List.suffix_concat_iff.mp hsuffix).resolve_left hrest
  exact skipFrom_confined more hstop hws (fun u hu ↦ hbody u (hbefore.mem hu)) hinner

/-! ## The statement that is given up -/

theorem Sequel.behind_id (more : List Token) (s : State) :
    (⟨id, more⟩ : Sequel).behind s = ⟨s.rest ++ more, s.functions, s.errors⟩ := by
  have hrest : s.rest.map (Token.moved id) = s.rest := List.map_id s.rest
  have herrors : s.errors.map (fun e ↦ (e.1.moved id, e.2)) = s.errors := List.map_id s.errors
  rw [Sequel.behind, hrest, herrors]

/-- A program of which nothing is left was given up at its first declaration, if its tokens are
confined: the parser stopped there, and there is no more to recover. -/
theorem Confined.givenUp (h : Confined tokens) {finish : Token} (hfinish : finish.kind = .eof)
    {complaints : List (Token × SyntaxError)}
    (hparse : parseProgram nesting tokens finish = ⟨.ok [], complaints⟩) :
    ∃ n s, nesting = n + 1 ∧ s.rest <:+ tokens ∧ s.functions = 0 ∧ s.errors = complaints.reverse ∧
      (∃ error before, s.errors = (s.rest.headD finish, error) :: before) ∧
      attempt ⟨finish, tokens.length + 1⟩ n ⟨tokens, 0, []⟩ = .error .fault s := by
  have hreads : ReadsStatements ⟨finish, tokens.length + 1⟩ nesting := .of_nesting hfinish nesting
  rw [parseProgram_eq_outcome] at hparse
  cases hdeclarations : declarations nesting tokens finish with
  | error abort s => rw [hdeclarations] at hparse; cases hparse
  | ok read s =>
    rw [hdeclarations, outcome, Parsed.mk.injEq, Except.ok.injEq] at hparse
    obtain ⟨hread, hcomplaints⟩ := hparse
    obtain ⟨st?, s₁, new, hfirst, hmany, rfl⟩ := many_eq_ok h.ne_nil hdeclarations
    have hfunctions : s₁.functions = 0 := ((hreads.declaration _).of_ok hfirst).1
    obtain rfl : st? = none := by
      cases st? with
      | none => rfl
      | some st => cases hread
    obtain ⟨n, s₂, rfl, hattempt, rfl⟩ := declaration_eq_none hfirst
    have hadvances : AdvancesStatements ⟨finish, tokens.length + 1⟩ n := .of_nesting hfinish n
    obtain ⟨hsuffix, hstopped⟩ := Ends.of_error
      (hadvances.attempt hfinish ⟨tokens, 0, []⟩ (Nat.lt_succ_self _)) hattempt
    -- Recovery ends behind the tokens, so the complaints are those of this declaration.
    have hresume : Parser.resume s₂.rest = [] := by
      by_cases hrest : s₂.rest = []
      · rw [hrest]
        rfl
      · rw [← List.append_nil s₂.rest]
        exact h.resume hsuffix hrest []
    obtain ⟨t, ts, rfl⟩ := List.exists_cons_of_ne_nil h.ne_nil
    rw [hresume] at hmany
    cases hmany
    refine ⟨n, s₂, rfl, hsuffix, hfunctions, ?_, hstopped.2 rfl, hattempt⟩
    rw [← hcomplaints, List.reverse_reverse]

/-- One bad statement does not affect its neighbours. It is given up at one of its own tokens, which
are confined, and it does not begin with an `else`, which could belong to the statement before it.
Then what comes before it and what comes behind it are parsed as if it were not there, and the
complaints about it come in front of those about what is behind it. -/
theorem parseProgram_neighbours {first second last : Token} (hfirst : first.kind = .eof)
    (hsecond : second.kind = .eof) (hlast : last.kind = .eof) {before bad behind : List Token}
    {program : List Stmt} {complaints : List (Token × SyntaxError)}
    (hbefore : parseProgram nesting before first = ⟨.ok program, []⟩)
    (hconfined : Confined bad) (helse : avoids .else bad) (hend : ∀ t ∈ bad, t.kind ≠ .eof)
    (hbad : parseProgram nesting bad second = ⟨.ok [], complaints⟩)
    (hraised : ∃ complaint, complaints.getLast? = some complaint ∧ complaint.1 ∈ bad) :
    parseProgram nesting (before ++ bad ++ behind) last
      = ⟨(parseProgram nesting behind last).result.map (program ++ ·),
        complaints ++ (parseProgram nesting behind last).errors⟩ := by
  obtain ⟨n, ⟨rest, functions, errors⟩, rfl, hsuffix, rfl, rfl, hlatest, hattempt⟩ :=
    hconfined.givenUp hsecond hbad
  have hrest : rest ≠ [] := by
    rintro rfl
    obtain ⟨complaint, hcomplaint, hmem⟩ := hraised
    obtain ⟨error, earlier, hlatest⟩ := hlatest
    have hhead : complaints.reverse.head? = some (second, error) := congrArg List.head? hlatest
    rw [List.head?_reverse, hcomplaint] at hhead
    obtain rfl := Option.some.inj hhead
    exact hend second hmem hsecond
  -- Up to the fault the parser has not looked behind the statement.
  have hgivenUp : ∀ size, (bad ++ behind).length < size →
      declaration ⟨last, size⟩ (n + 1) ⟨bad ++ behind, 0, []⟩
        = .ok none ⟨behind, 0, complaints.reverse⟩ := by
    intro size hsize
    have hroom : bad.length + 1 ≤ size := by
      rw [List.length_append] at hsize
      omega
    have hstatements : CarriesStatements ⟨id, behind⟩ ⟨second, bad.length + 1⟩ ⟨last, size⟩ n :=
      .of_nesting hroom n
    have hcarries := hstatements.attempt hroom ⟨bad, 0, []⟩
    have hfault := (hcarries.of_error hattempt).2 rfl hrest
    rw [Sequel.behind_id, Sequel.behind_id] at hfault
    rw [declaration_eq_recovering, recovering, hfault]
    exact congrArg (fun ts ↦ EStateM.Result.ok none (State.mk ts 0 complaints.reverse))
      (hconfined.resume hsuffix hrest behind)
  have hlength : behind.length < (bad ++ behind).length := by
    rw [List.length_append]
    exact Nat.lt_add_of_pos_left (List.length_pos_iff.mpr hconfined.ne_nil)
  have helse' : avoids .else (bad ++ behind) := by
    obtain ⟨t, ts, rfl⟩ := List.exists_cons_of_ne_nil hconfined.ne_nil
    exact avoids_cons (helse t rfl)
  rw [List.append_assoc, parseProgram_givenUp hfirst hlast hbefore helse' hlength hgivenUp,
    List.reverse_reverse]

/-- In `print nil; print; print true;` the second statement is given up at its semicolon, and the
two others are read. -/
theorem parseProgram_neighbours_print :
    parseProgram 20
        [⟨.print, "print", .nil, 1⟩, ⟨.nil, "nil", .nil, 1⟩, ⟨.semicolon, ";", .nil, 1⟩,
          ⟨.print, "print", .nil, 1⟩, ⟨.semicolon, ";", .nil, 1⟩,
          ⟨.print, "print", .nil, 1⟩, ⟨.true, "true", .nil, 1⟩, ⟨.semicolon, ";", .nil, 1⟩]
        ⟨.eof, "", .nil, 1⟩
      = ⟨.ok [.print (.literal .nil), .print (.literal (.bool true))],
        [(⟨.semicolon, ";", .nil, 1⟩, .expected "expression")]⟩ := by
  have hconfined : Confined [⟨.print, "print", .nil, 1⟩, ⟨.semicolon, ";", .nil, 1⟩] :=
    ⟨⟨[⟨.print, "print", .nil, 1⟩], ⟨.semicolon, ";", .nil, 1⟩, rfl, rfl, by decide⟩, by decide⟩
  have hbefore : parseProgram 20
      [⟨.print, "print", .nil, 1⟩, ⟨.nil, "nil", .nil, 1⟩, ⟨.semicolon, ";", .nil, 1⟩]
      ⟨.eof, "", .nil, 1⟩ = ⟨.ok [.print (.literal .nil)], []⟩ := rfl
  have hbad : parseProgram 20 [⟨.print, "print", .nil, 1⟩, ⟨.semicolon, ";", .nil, 1⟩]
      ⟨.eof, "", .nil, 1⟩ = ⟨.ok [], [(⟨.semicolon, ";", .nil, 1⟩, .expected "expression")]⟩ := rfl
  have helse : avoids .else [⟨.print, "print", .nil, 1⟩, ⟨.semicolon, ";", .nil, 1⟩] := by
    rintro t ⟨⟩
    decide
  exact parseProgram_neighbours rfl rfl rfl hbefore hconfined helse (by decide) hbad
    ⟨_, rfl, by decide⟩

end Parser

end Lox
