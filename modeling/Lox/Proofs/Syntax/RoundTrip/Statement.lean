import Lox.Proofs.Syntax.RoundTrip.Expression

/-!
# Reading programs back

A well-formed statement is read back from each of its spellings, whatever follows; only an `else`
may not follow a statement that could take it. As every nested statement takes fewer tokens than the
statement around it, ten nested calls for each token are again enough.
-/

namespace Lox

namespace Parser

variable {input : Input} {nesting functions : Nat} {ts : List Token}

/-! ## Simple statements -/

theorem parses_expression {e : Expr} (he : e.WellFormed) (hts : Spells e.spelling ts)
    (hsize : ts.length < input.size) (hnesting : 10 * ts.length < nesting)
    {follow : List Token → Prop} (hfollow : ∀ rest, follow rest → stopsAt 0 rest) :
    Parses (expression input nesting) functions e ts follow :=
  (recognized_of_wellFormed he hts hsize).parses_expression hnesting hfollow

/-- An expression in front of a token that is expected there. -/
theorem parses_expressionThen {β : Type} {q : Expr → Token → Parse β} {b : β} {e : Expr}
    {t : Token} {us : List Token} {kind : Kind} {what : String} {next : List Token → Prop}
    (he : e.WellFormed) (hts : Spells e.spelling ts) (hsize : ts.length < input.size)
    (hnesting : 10 * ts.length < nesting) (ht : t.kind = kind) (hkind : kind.tightness? = none)
    (hq : Parses (q e t) functions b us next) :
    Parses (do
      let e ← expression input nesting
      let t ← expect input kind what
      q e t) functions b (ts ++ t :: us) next :=
  (parses_expression he hts hsize hnesting fun _ ↦ Recognized.stopsAt_of_begins hkind).andThen
    (.expectThen ht hq) fun rest _ ↦ ⟨t, us ++ rest, rfl, ht⟩

/-- An expression in front of a token that no expression begins with and that none goes on with. -/
theorem parses_expressionUnless {stop : Kind} {e? : Option Expr} (he : ∀ e ∈ e?, e.WellFormed)
    (hts : Spells (Expr.spellingAfter [] e?) ts) (hstop : stop.startsExpression = false)
    (htightness : stop.tightness? = none) (hsize : ts.length < input.size)
    (hnesting : 10 * ts.length < nesting) :
    Parses (expressionUnless input stop nesting) functions e? ts (begins stop) := by
  cases e? with
  | none =>
    rw [spells_nil.mp hts]
    rintro _ errors ⟨t, us, rfl, ht⟩
    have hcheck : check (fun k ↦ decide (k = stop)) ⟨t :: us, functions, errors⟩
        = .ok true ⟨t :: us, functions, errors⟩ := by
      rw [check]
      simp only [List.head?_cons, Option.any_some, ht, decide_true]
    rw [expressionUnless, List.nil_append, bind_of_ok hcheck]
    rfl
  | some e =>
    have hts : Spells e.spelling ts := hts
    obtain ⟨t, us, rfl, ht, _⟩ := (he e rfl).begins hts
    rw [expressionUnless]
    refine .check ?_
    have hne : t.kind ≠ stop := by
      rintro rfl
      rw [hstop] at ht
      cases ht
    rw [decide_eq_false hne, if_neg Bool.false_ne_true]
    refine Parses.andReturn (parses_expression (he e rfl) hts hsize hnesting fun _ ↦ ?_) rfl
    exact Recognized.stopsAt_of_begins htightness

theorem parses_expressionStatement {value : Expr} (hvalue : value.WellFormed)
    (hts : Spells (Stmt.expression value).spelling ts) (hsize : ts.length < input.size)
    (hnesting : 10 * ts.length ≤ nesting + 2) :
    Parses (expressionStatement input nesting) functions (.expression value) ts anything := by
  obtain ⟨us, vs, hus, hvs, rfl⟩ := spells_append.mp hts
  obtain ⟨semicolon, ws, hsemicolon, hws, rfl⟩ := spells_cons.mp hvs
  rw [spells_nil.mp hws] at *
  rw [List.length_append, List.length_singleton] at hsize hnesting
  obtain ⟨nesting, rfl⟩ := Nat.exists_eq_succ_of_ne_zero (n := nesting) (by omega)
  rw [expressionStatement]
  exact parses_expressionThen hvalue hus (by omega) (by omega) hsemicolon rfl .pure

/-- A variable declaration behind its keyword. -/
theorem parses_varDeclaration {name : Token} {initializer : Option Expr}
    (hname : name.kind = .identifier) (hinitializer : ∀ e ∈ initializer, e.WellFormed)
    (hts : Spells (.token name :: Expr.spellingAfter [.mark .equal] initializer
      ++ [.mark .semicolon]) ts) (hsize : ts.length < input.size)
    (hnesting : 10 * ts.length ≤ nesting) :
    Parses (varDeclaration input nesting) functions (.var name initializer) ts anything := by
  obtain ⟨name, us, rfl, hus, rfl⟩ := spells_cons.mp hts
  obtain ⟨vs, ws, hvs, hws, rfl⟩ := spells_append.mp hus
  obtain ⟨semicolon, xs, hsemicolon, hxs, rfl⟩ := spells_cons.mp hws
  rw [spells_nil.mp hxs] at *
  rw [List.length_cons, List.length_append, List.length_singleton] at hsize hnesting
  obtain ⟨nesting, rfl⟩ := Nat.exists_eq_succ_of_ne_zero (n := nesting) (by omega)
  rw [varDeclaration]
  refine .expectThen hname ?_
  cases initializer with
  | none =>
    rw [spells_nil.mp hvs]
    refine .skipThen (.expectThen hsemicolon .pure) fun rest _ t ht heq ↦ ?_
    rw [← Option.mem_some_iff.mp ht, hsemicolon] at heq
    cases heq
  | some e =>
    obtain ⟨equals, ys, hequals, hys, rfl⟩ := spells_cons.mp hvs
    rw [List.length_cons] at hsize hnesting
    have hvalue : Parses (expression input nesting) functions e ys (begins .semicolon) :=
      parses_expression (hinitializer e rfl) hys (by omega) (by omega)
        fun _ ↦ Recognized.stopsAt_of_begins rfl
    refine .acceptThen hequals (hvalue.map.andThen (.expectThen hsemicolon .pure) fun rest _ ↦ ?_)
    exact ⟨semicolon, rest, rfl, hsemicolon⟩

/-- A return statement behind its keyword. -/
theorem parses_returnStatement {keyword : Token} {value : Option Expr}
    (hvalue : ∀ e ∈ value, e.WellFormed)
    (hts : Spells (Expr.spellingAfter [] value ++ [.mark .semicolon]) ts)
    (hfunctions : functions ≠ 0) (hsize : ts.length < input.size)
    (hnesting : 10 * ts.length ≤ nesting) :
    Parses (returnStatement input keyword nesting) functions (.return keyword value) ts
      anything := by
  obtain ⟨us, vs, hus, hvs, rfl⟩ := spells_append.mp hts
  obtain ⟨semicolon, ws, hsemicolon, hws, rfl⟩ := spells_cons.mp hvs
  rw [spells_nil.mp hws] at *
  rw [List.length_append, List.length_singleton] at hsize hnesting
  obtain ⟨nesting, rfl⟩ := Nat.exists_eq_succ_of_ne_zero (n := nesting) (by omega)
  have hrest : Parses (do
      let value ← expressionUnless input .semicolon nesting
      let _ ← expect input .semicolon "';' after return value"
      return Stmt.return keyword value) functions (.return keyword value) (us ++ [semicolon])
      anything :=
    (parses_expressionUnless hvalue hus rfl rfl (by omega) (by omega)).andThen
      (.expectThen hsemicolon .pure) fun rest _ ↦ ⟨semicolon, rest, rfl, hsemicolon⟩
  intro rest errors hfollow
  rw [returnStatement]
  have hget : (MonadState.get : Parse State) ⟨us ++ [semicolon] ++ rest, functions, errors⟩
      = .ok ⟨us ++ [semicolon] ++ rest, functions, errors⟩
        ⟨us ++ [semicolon] ++ rest, functions, errors⟩ := rfl
  refine (bind_of_ok hget).trans ?_
  rw [if_neg hfunctions]
  exact hrest rest errors hfollow

/-- The name and the parameters of a function. -/
theorem parses_functionHead {what : String} {f : FunDecl} (hhead : f.HeadWellFormed)
    (hts : Spells (.token f.name :: .mark .leftParen
      :: Glyph.commaSeparated (f.parameters.map fun p ↦ [.token p]) ++ [.mark .rightParen]) ts)
    (hsize : ts.length < input.size) :
    Parses (functionHead input what) functions (f.name, f.parameters) ts anything := by
  obtain ⟨name, us, hname, hus, rfl⟩ := spells_cons.mp hts
  obtain ⟨openParen, vs, hopen, hvs, rfl⟩ := spells_cons.mp hus
  obtain ⟨ws, xs, hws, hxs, rfl⟩ := spells_append.mp hvs
  obtain ⟨closeParen, ys, hclose, hys, rfl⟩ := spells_cons.mp hxs
  rw [spells_nil.mp hys] at *
  simp only [List.length_cons, List.length_append] at hsize
  rw [functionHead]
  have hname : f.name = name := hname
  refine .expectThen (by rw [← hname]; exact hhead.name) (.expectThen hopen ?_)
  have hparameters : Parses (listed input "parameters" (expect input .identifier "parameter name"))
      functions f.parameters ws (begins .rightParen) := by
    refine parses_listed anything (fun _ _ ↦ trivial) (fun _ _ ↦ trivial) (fun p hp us hus _ ↦ ?_)
      hws hhead.room (by omega)
    obtain ⟨t, vs, rfl, hvs, rfl⟩ := spells_cons.mp hus
    rw [spells_nil.mp hvs]
    refine ⟨.expect (hhead.parameters p hp), p, [], rfl, fun hkind ↦ ?_⟩
    rw [hhead.parameters p hp] at hkind
    cases hkind
  refine hparameters.andThen (.expectThen hclose ?_) fun rest _ ↦ ⟨closeParen, rest, rfl, hclose⟩
  rw [hname]
  exact .pure

end Parser

/-! ## How a statement begins -/

/-- Whether a token of this kind begins a statement that is no declaration. -/
def Kind.startsBody : Kind → Bool
  | .for | .while | .if | .print | .return | .leftBrace => .true
  | kind => kind.startsExpression

/-- Whether a token of this kind begins a statement. -/
def Kind.startsDeclaration : Kind → Bool
  | .var | .class | .fun => .true
  | kind => kind.startsBody

theorem Kind.startsBody_of_startsExpression {kind : Kind} (h : kind.startsExpression = .true) :
    kind.startsBody = .true := by
  cases kind <;> first | rfl | cases h

theorem Kind.startsDeclaration_of_startsBody {kind : Kind} (h : kind.startsBody = .true) :
    kind.startsDeclaration = .true := by
  cases kind <;> first | rfl | cases h

theorem Stmt.WellFormed.begins {inside : Bool} {st : Stmt} (h : st.WellFormed inside)
    {ts : List Token} (hts : Spells st.spelling ts) :
    ∃ t us, ts = t :: us ∧ t.kind.startsDeclaration = true ∧
      (st.isDeclaration = false → t.kind.startsBody = true) := by
  -- A keyword settles both questions.
  have keyword : ∀ {kind : Kind} {glyphs : List Glyph}, kind.startsBody = true →
      Spells (.mark kind :: glyphs) ts → ∃ t us, ts = t :: us ∧ t.kind.startsDeclaration = true ∧
        (st.isDeclaration = false → t.kind.startsBody = true) := by
    intro kind glyphs hkind hts
    obtain ⟨t, us, ht, _, rfl⟩ := spells_cons.mp hts
    have ht : t.kind.startsBody = true := by rw [show t.kind = kind from ht]; exact hkind
    exact ⟨t, us, rfl, Kind.startsDeclaration_of_startsBody ht, fun _ ↦ ht⟩
  have declares : ∀ {kind : Kind} {glyphs : List Glyph}, kind.startsDeclaration = true →
      st.isDeclaration = true → Spells (.mark kind :: glyphs) ts →
      ∃ t us, ts = t :: us ∧ t.kind.startsDeclaration = true ∧
        (st.isDeclaration = false → t.kind.startsBody = true) := by
    intro kind glyphs hkind hst hts
    obtain ⟨t, us, ht, _, rfl⟩ := spells_cons.mp hts
    refine ⟨t, us, rfl, by rw [show t.kind = kind from ht]; exact hkind, fun hst' ↦ ?_⟩
    rw [hst] at hst'
    cases hst'
  cases h with
  | expression hvalue =>
    obtain ⟨us, vs, hus, _, rfl⟩ := spells_append.mp hts
    obtain ⟨t, ws, rfl, ht, _⟩ := hvalue.begins hus
    have ht := Kind.startsBody_of_startsExpression ht
    exact ⟨t, ws ++ vs, rfl, Kind.startsDeclaration_of_startsBody ht, fun _ ↦ ht⟩
  | «return» hkeyword _ =>
    obtain ⟨t, us, rfl, _, rfl⟩ := spells_cons.mp hts
    refine ⟨_, us, rfl, ?_, fun _ ↦ ?_⟩ <;> rw [hkeyword] <;> rfl
  | print | block | branch | loop | forLoop => exact keyword rfl hts
  | var | function | «class» => exact declares rfl rfl hts

namespace Parser

variable {input : Input} {nesting functions : Nat} {ts : List Token} {inside : Bool} {st : Stmt}

theorem avoids_cons {kind : Kind} {t : Token} {rest : List Token} (h : t.kind ≠ kind) :
    avoids kind (t :: rest) := by
  intro u hu
  rw [← Option.mem_some_iff.mp hu]
  exact h

theorem ne_of_startsDeclaration {t : Token} {kind : Kind} (h : t.kind.startsDeclaration = true)
    (hkind : kind.startsDeclaration = false) : t.kind ≠ kind := by
  rintro rfl
  rw [hkind] at h
  cases h

/-! ## Statements that are read back -/

/-- What may follow a statement. -/
def behind (st : Stmt) : List Token → Prop := fun rest ↦ st.dangles = true → avoids .else rest

/-- On some tokens a statement is what the parsers of declarations and of statements read. -/
structure RecognizedStatement (input : Input) (inside : Bool) (st : Stmt) (ts : List Token) :
    Prop where
  declaration : ∀ {nesting functions}, (inside = true → functions ≠ 0) → 10 * ts.length ≤ nesting →
    Parses (declaration input nesting) functions (some st) ts (avoids .else)
  statement : st.isDeclaration = false → ∀ {nesting functions}, (inside = true → functions ≠ 0) →
    10 * ts.length ≤ nesting + 1 → Parses (statement input nesting) functions st ts (behind st)

namespace RecognizedStatement

/-- A statement that is no declaration is read by the parser of statements. -/
theorem of_statement (hst : st.WellFormed inside) (hts : Spells st.spelling ts)
    (hdeclaration : st.isDeclaration = false)
    (h : ∀ {nesting functions}, (inside = true → functions ≠ 0) → 10 * ts.length ≤ nesting + 2 →
      Parses (Parser.statement input (nesting + 1)) functions st ts (behind st)) :
    RecognizedStatement input inside st ts := by
  obtain ⟨t, us, rfl, _, ht⟩ := hst.begins hts
  rw [List.length_cons] at h
  have hstatement : ∀ {nesting functions}, (inside = true → functions ≠ 0) →
      10 * (us.length + 1) ≤ nesting + 1 →
      Parses (Parser.statement input nesting) functions st (t :: us) (behind st) := by
    intro nesting functions hinside hnesting
    obtain ⟨nesting, rfl⟩ := Nat.exists_eq_succ_of_ne_zero (n := nesting) (by omega)
    exact h hinside hnesting
  refine ⟨fun {nesting functions} hinside hnesting ↦ ?_,
    fun _ {nesting functions} hinside hnesting ↦ hstatement hinside hnesting⟩
  rw [List.length_cons] at hnesting
  obtain ⟨nesting, rfl⟩ := Nat.exists_eq_succ_of_ne_zero (n := nesting) (by omega)
  have hkind := ht hdeclaration
  rw [Parser.declaration]
  refine .recovering (.peek ?_)
  split
  case h_1 heq | h_2 heq | h_3 heq =>
    rw [heq] at hkind
    cases hkind
  case h_4 => exact (hstatement hinside (by omega)).mono fun _ h _ ↦ h

/-- A declaration begins with its keyword. -/
theorem of_declaration {t : Token} {us : List Token} (hdeclaration : st.isDeclaration = true)
    (h : ∀ {nesting functions}, (inside = true → functions ≠ 0) →
      10 * (us.length + 1) ≤ nesting + 1 → Parses (do
        match t.kind with
        | .var => advance; varDeclaration input nesting
        | .class => advance; classDeclaration input nesting
        | .fun => advance; .function <$> function input "function" nesting
        | _ => Parser.statement input nesting) functions st (t :: us) (avoids .else)) :
    RecognizedStatement input inside st (t :: us) := by
  refine ⟨fun {nesting functions} hinside hnesting ↦ ?_, fun h ↦ ?_⟩
  · rw [List.length_cons] at hnesting
    obtain ⟨nesting, rfl⟩ := Nat.exists_eq_succ_of_ne_zero (n := nesting) (by omega)
    rw [Parser.declaration]
    exact .recovering (.peek (h hinside hnesting))
  · rw [hdeclaration] at h
    cases h

end RecognizedStatement

/-- Rows of statements up to something that no statement begins with. -/
theorem parses_declarations {body : List Stmt} {stops : Kind → Bool} {next : List Token → Prop}
    (hbody : ∀ st ∈ body, st.WellFormed inside) (hts : Spells (Stmt.spellings body) ts)
    (hrecognized : ∀ st ∈ body, ∀ us, Spells st.spelling us → us.length ≤ ts.length →
      RecognizedStatement input inside st us)
    (hstops : ∀ kind : Kind, kind.startsDeclaration = true → stops kind = false)
    (hnext : ∀ rest, next rest → avoids .else rest)
    (hstop : ∀ rest, next rest → ∀ t ∈ rest.head?, stops t.kind = true)
    (hinside : inside = true → functions ≠ 0) (hsize : ts.length < input.size)
    (hnesting : 10 * ts.length ≤ nesting) :
    Parses (many stops (declaration input nesting) input.size []) functions (body.map some) ts
      next := by
  rw [Stmt.spellings_eq_flatten] at hts
  refine parses_many (avoids .else) hnext hstop []
    (fun st hst us hus hle ↦ ⟨?_, ?_⟩) hts hsize
  · exact (hrecognized st hst us hus hle).declaration hinside (by omega)
  · obtain ⟨t, vs, rfl, ht, _⟩ := (hbody st hst).begins hus
    exact ⟨t, vs, rfl, hstops t.kind ht, fun _ ↦ avoids_cons (ne_of_startsDeclaration ht rfl)⟩

theorem parses_function {what : String} {f : FunDecl} (hhead : f.HeadWellFormed)
    (hdeclaration : f.body.isDeclaration = false)
    (hbody : ∀ us, Spells f.body.spelling us → us.length < ts.length →
      RecognizedStatement input true f.body us)
    (hts : Spells f.spelling ts) (hsize : ts.length < input.size)
    (hnesting : 10 * ts.length ≤ nesting) :
    Parses (function input what nesting) functions f ts (behind f.body) := by
  obtain ⟨name, parameters, body⟩ := f
  have hsplit : Spells ((.token name :: .mark .leftParen
      :: Glyph.commaSeparated (parameters.map fun p ↦ [.token p]) ++ [.mark .rightParen])
      ++ body.spelling) ts := by
    simpa [FunDecl.spelling] using hts
  obtain ⟨us, vs, hus, hvs, rfl⟩ := spells_append.mp hsplit
  rw [List.length_append] at hsize hnesting
  have hpos : 0 < us.length := by
    obtain ⟨t, ws, _, _, rfl⟩ := spells_cons.mp hus
    exact Nat.succ_pos _
  obtain ⟨nesting, rfl⟩ := Nat.exists_eq_succ_of_ne_zero (n := nesting) (by omega)
  have hrecognized := hbody vs hvs (by rw [List.length_append]; omega)
  rw [function]
  refine (parses_functionHead hhead hus (by omega)).andThen (Parses.map (.insideFunction
    (hrecognized.statement hdeclaration (fun _ ↦ Nat.succ_ne_zero _) (by omega)))) fun _ _ ↦ trivial

/-- The methods of a class, up to its closing brace. -/
theorem parses_methods {methods : List FunDecl} (hheads : ∀ f ∈ methods, f.HeadWellFormed)
    (hdeclarations : ∀ f ∈ methods, f.body.isDeclaration = false)
    (hbodies : ∀ f ∈ methods, ∀ us, Spells f.body.spelling us → us.length < ts.length →
      RecognizedStatement input true f.body us)
    (hts : Spells (FunDecl.spellings methods) ts) (hsize : ts.length < input.size)
    (hnesting : 10 * ts.length ≤ nesting) :
    Parses (many (fun k ↦ decide (k = .rightBrace)) (function input "method" nesting) input.size [])
      functions methods ts (begins .rightBrace) := by
  rw [FunDecl.spellings_eq_flatten] at hts
  rw [← List.map_id methods]
  refine parses_many (avoids .else) (fun rest hrest ↦ ?_) (fun rest hrest u hu ↦ ?_) []
    (fun f hf us hus hle ↦ ⟨?_, ?_⟩) hts hsize
  · obtain ⟨t, us, rfl, ht⟩ := hrest
    exact avoids_cons (by rw [ht]; decide)
  · obtain ⟨t, us, rfl, ht⟩ := hrest
    rw [← Option.mem_some_iff.mp hu]
    exact decide_eq_true ht
  · exact (parses_function (hheads f hf) (hdeclarations f hf)
      (fun vs hvs hlt ↦ hbodies f hf vs hvs (by omega)) hus (by omega) (by omega)).mono
      fun _ h _ ↦ h
  · -- A method begins with its name, which neither ends the row nor is an `else`.
    obtain ⟨name, parameters, body⟩ := f
    obtain ⟨t, vs, ht, _, rfl⟩ := spells_cons.mp hus
    have hkind : t.kind = .identifier := by
      rw [← show name = t from ht]
      exact (hheads _ hf).name
    refine ⟨t, vs, rfl, ?_, fun _ ↦ avoids_cons ?_⟩ <;> rw [hkind] <;> decide

/-- A `for` statement behind its first clause. -/
theorem parses_forRest (initializer : Option Stmt) {condition increment : Option Expr}
    {body : Stmt} {us vs ws : List Token} {semicolon closeParen : Token}
    (hcondition : ∀ e ∈ condition, e.WellFormed) (hincrement : ∀ e ∈ increment, e.WellFormed)
    (hus : Spells (Expr.spellingAfter [] condition) us) (hsemicolon : semicolon.kind = .semicolon)
    (hvs : Spells (Expr.spellingAfter [] increment) vs) (hclose : closeParen.kind = .rightParen)
    (hbody : Parses (statement input nesting) functions body ws (behind body))
    (hsize : us.length + vs.length < input.size)
    (hnesting : 10 * (us.length + vs.length) < nesting) :
    Parses (do
      let condition ← expressionUnless input .semicolon nesting
      let _ ← expect input .semicolon "';' after loop condition"
      let increment ← expressionUnless input .rightParen nesting
      let _ ← expect input .rightParen "')' after for clauses"
      return Stmt.forLoop initializer condition increment (← statement input nesting)) functions
      (.forLoop initializer condition increment body)
      (us ++ semicolon :: (vs ++ closeParen :: ws)) (behind body) := by
  refine (parses_expressionUnless hcondition hus rfl rfl (by omega) (by omega)).andThen
    (.expectThen hsemicolon ((parses_expressionUnless hincrement hvs rfl rfl (by omega)
      (by omega)).andThen (.expectThen hclose (hbody.andReturn rfl)) ?_)) ?_
  · exact fun rest _ ↦ ⟨closeParen, _, rfl, hclose⟩
  · exact fun rest _ ↦ ⟨semicolon, _, rfl, hsemicolon⟩

namespace RecognizedStatement

theorem expression {value : Expr} (hvalue : value.WellFormed)
    (hts : Spells (Stmt.expression value).spelling ts) (hsize : ts.length < input.size) :
    RecognizedStatement input inside (.expression value) ts := by
  refine of_statement (.expression hvalue) hts rfl fun {nesting functions} _ hnesting ↦ ?_
  have hparses : Parses (expressionStatement input nesting) functions (.expression value) ts
      anything := parses_expressionStatement hvalue hts hsize hnesting
  obtain ⟨us, vs, hus, _, rfl⟩ := spells_append.mp hts
  obtain ⟨t, ws, rfl, ht, _⟩ := hvalue.begins hus
  rw [Parser.statement]
  rw [List.cons_append]
  refine Parses.peek ?_
  split
  case h_7 => exact hparses.mono fun _ _ ↦ trivial
  all_goals
    rename_i heq
    rw [heq] at ht
    cases ht

theorem print {value : Expr} (hvalue : value.WellFormed)
    (hts : Spells (Stmt.print value).spelling ts) (hsize : ts.length < input.size) :
    RecognizedStatement input inside (.print value) ts := by
  refine of_statement (.print hvalue) hts rfl fun {nesting functions} _ hnesting ↦ ?_
  obtain ⟨keyword, us, hkeyword, hus, rfl⟩ := spells_cons.mp hts
  obtain ⟨vs, ws, hvs, hws, rfl⟩ := spells_append.mp hus
  obtain ⟨semicolon, xs, hsemicolon, hxs, rfl⟩ := spells_cons.mp hws
  rw [spells_nil.mp hxs] at *
  rw [List.length_cons, List.length_append, List.length_singleton] at hsize hnesting
  rw [Parser.statement]
  refine .peek ?_
  rw [show keyword.kind = .print from hkeyword]
  exact .advance (parses_expressionThen hvalue hvs (by omega) (by omega) hsemicolon rfl .pure)

theorem «return» {keyword : Token} {value : Option Expr} (hkeyword : keyword.kind = .return)
    (hvalue : ∀ e ∈ value, e.WellFormed)
    (hts : Spells (Stmt.return keyword value).spelling ts) (hsize : ts.length < input.size) :
    RecognizedStatement input true (.return keyword value) ts := by
  refine of_statement (.return hkeyword hvalue) hts rfl
    fun {nesting functions} hinside hnesting ↦ ?_
  obtain ⟨keyword, us, rfl, hus, rfl⟩ := spells_cons.mp hts
  rw [List.length_cons] at hsize hnesting
  rw [Parser.statement]
  refine .peek ?_
  rw [hkeyword]
  exact .advance ((parses_returnStatement hvalue hus (hinside rfl) (by omega) (by omega)).mono
    fun _ _ ↦ trivial)

theorem block {body : List Stmt} (hbody : ∀ st ∈ body, st.WellFormed inside)
    (hts : Spells (Stmt.block body).spelling ts)
    (hrecognized : ∀ st ∈ body, ∀ us, Spells st.spelling us → us.length < ts.length →
      RecognizedStatement input inside st us) (hsize : ts.length < input.size) :
    RecognizedStatement input inside (.block body) ts := by
  refine of_statement (.block hbody) hts rfl fun {nesting functions} hinside hnesting ↦ ?_
  obtain ⟨openBrace, us, hopen, hus, rfl⟩ := spells_cons.mp hts
  obtain ⟨vs, ws, hvs, hws, rfl⟩ := spells_append.mp hus
  obtain ⟨closeBrace, xs, hclose, hxs, rfl⟩ := spells_cons.mp hws
  rw [spells_nil.mp hxs] at *
  rw [List.length_cons, List.length_append, List.length_singleton] at hsize hnesting hrecognized
  obtain ⟨nesting, rfl⟩ := Nat.exists_eq_succ_of_ne_zero (n := nesting) (by omega)
  rw [Parser.statement]
  refine .peek ?_
  rw [show openBrace.kind = .leftBrace from hopen]
  refine .advance (.map ?_)
  rw [Parser.block]
  have hclose : closeBrace.kind = .rightBrace := hclose
  have hrow : Parses (many (fun k ↦ decide (k = .rightBrace)) (Parser.declaration input nesting)
      input.size []) functions (body.map some) vs (begins .rightBrace) := by
    refine parses_declarations hbody hvs (fun st hst us hus hle ↦ hrecognized st hst us hus ?_)
      (fun kind hkind ↦ decide_eq_false ?_) (fun rest hrest ↦ ?_) (fun rest hrest u hu ↦ ?_) hinside
      (by omega) (by omega)
    · omega
    · rintro rfl
      cases hkind
    · obtain ⟨t, us, rfl, ht⟩ := hrest
      exact avoids_cons (by rw [ht]; decide)
    · obtain ⟨t, us, rfl, ht⟩ := hrest
      rw [← Option.mem_some_iff.mp hu]
      exact decide_eq_true ht
  have hbodyEq : (body.map some).filterMap id = body := by simp
  rw [← hbodyEq]
  exact hrow.andThen (.expectThen hclose .pure) fun rest _ ↦ ⟨closeBrace, rest, rfl, hclose⟩

theorem branch {condition : Expr} {yes : Stmt} {no : Option Stmt}
    (hst : (Stmt.branch condition yes no).WellFormed inside)
    (hts : Spells (Stmt.branch condition yes no).spelling ts)
    (hyes : ∀ us, Spells yes.spelling us → us.length < ts.length →
      RecognizedStatement input inside yes us)
    (hno : ∀ st ∈ no, ∀ us, Spells st.spelling us → us.length < ts.length →
      RecognizedStatement input inside st us) (hsize : ts.length < input.size) :
    RecognizedStatement input inside (.branch condition yes no) ts := by
  refine of_statement hst hts rfl fun {nesting functions} hinside hnesting ↦ ?_
  cases hst with
  | branch hcondition _ hyesDeclaration _ hnoDeclaration hdangles =>
    have hsplit : Spells (.mark .if :: .mark .leftParen :: (condition.spelling
        ++ .mark .rightParen :: (yes.spelling ++ Stmt.spellingAfter [.mark .else] [] no))) ts := by
      simpa [Stmt.spelling] using hts
    obtain ⟨keyword, us, hkeyword, hus, rfl⟩ := spells_cons.mp hsplit
    obtain ⟨openParen, vs, hopen, hvs, rfl⟩ := spells_cons.mp hus
    obtain ⟨ws, xs, hws, hxs, rfl⟩ := spells_append.mp hvs
    obtain ⟨closeParen, ys, hclose, hys, rfl⟩ := spells_cons.mp hxs
    obtain ⟨zs, tail, hzs, htail, rfl⟩ := spells_append.mp hys
    simp only [List.length_cons, List.length_append] at hsize hnesting hyes hno
    have hfirst : Parses (Parser.statement input nesting) functions yes zs (behind yes) :=
      (hyes zs hzs (by omega)).statement hyesDeclaration hinside (by omega)
    rw [Parser.statement]
    refine .peek ?_
    rw [show keyword.kind = .if from hkeyword]
    refine .advance (.expectThen hopen (parses_expressionThen hcondition hws (by omega) (by omega)
      hclose rfl ?_))
    cases no with
    | none =>
      rw [spells_nil.mp htail]
      exact hfirst.andThen (.skipThen .pure fun rest hrest ↦ hrest rfl) fun rest hrest _ ↦ hrest rfl
    | some no =>
      obtain ⟨elseToken, last, helse, hlast, rfl⟩ := spells_cons.mp htail
      rw [List.length_cons] at hsize hnesting hno
      have hsecond : Parses (Parser.statement input nesting) functions no last (behind no) :=
        (hno no rfl last hlast (by omega)).statement (hnoDeclaration no rfl) hinside (by omega)
      refine hfirst.andThen (.acceptThen helse (hsecond.andReturn rfl)) fun rest _ h ↦ ?_
      rw [hdangles rfl] at h
      cases h

theorem loop {condition : Expr} {body : Stmt} (hst : (Stmt.loop condition body).WellFormed inside)
    (hts : Spells (Stmt.loop condition body).spelling ts)
    (hbody : ∀ us, Spells body.spelling us → us.length < ts.length →
      RecognizedStatement input inside body us) (hsize : ts.length < input.size) :
    RecognizedStatement input inside (.loop condition body) ts := by
  refine of_statement hst hts rfl fun {nesting functions} hinside hnesting ↦ ?_
  cases hst with
  | loop hcondition _ hdeclaration =>
    obtain ⟨keyword, us, hkeyword, hus, rfl⟩ := spells_cons.mp hts
    obtain ⟨openParen, vs, hopen, hvs, rfl⟩ := spells_cons.mp hus
    obtain ⟨ws, xs, hws, hxs, rfl⟩ := spells_append.mp hvs
    obtain ⟨closeParen, ys, hclose, hys, rfl⟩ := spells_cons.mp hxs
    simp only [List.length_cons, List.length_append] at hsize hnesting hbody
    have hparses : Parses (Parser.statement input nesting) functions body ys (behind body) :=
      (hbody ys hys (by omega)).statement hdeclaration hinside (by omega)
    rw [Parser.statement]
    refine .peek ?_
    rw [show keyword.kind = .while from hkeyword]
    exact .advance (.expectThen hopen (parses_expressionThen hcondition hws (by omega) (by omega)
      hclose rfl (hparses.andReturn rfl)))

theorem forLoop {initializer : Option Stmt} {condition increment : Option Expr} {body : Stmt}
    (hst : (Stmt.forLoop initializer condition increment body).WellFormed inside)
    (hts : Spells (Stmt.forLoop initializer condition increment body).spelling ts)
    (hbody : ∀ us, Spells body.spelling us → us.length < ts.length →
      RecognizedStatement input inside body us) (hsize : ts.length < input.size) :
    RecognizedStatement input inside (.forLoop initializer condition increment body) ts := by
  refine of_statement hst hts rfl fun {nesting functions} hinside hnesting ↦ ?_
  cases hst with
  | forLoop hinitializer hinitial hcondition hincrement _ hdeclaration =>
    have hsplit : Spells (.mark .for :: .mark .leftParen
        :: (Stmt.spellingAfter [] [.mark .semicolon] initializer ++ (Expr.spellingAfter [] condition
          ++ .mark .semicolon :: (Expr.spellingAfter [] increment
            ++ .mark .rightParen :: body.spelling)))) ts := by
      simpa [Stmt.spelling] using hts
    obtain ⟨keyword, us, hkeyword, hus, rfl⟩ := spells_cons.mp hsplit
    obtain ⟨openParen, vs, hopen, hvs, rfl⟩ := spells_cons.mp hus
    obtain ⟨first, xs, hfirst, hxs, rfl⟩ := spells_append.mp hvs
    obtain ⟨second, ys, hsecond, hys, rfl⟩ := spells_append.mp hxs
    obtain ⟨semicolon, zs, hsemicolon, hzs, rfl⟩ := spells_cons.mp hys
    obtain ⟨third, tail, hthird, htail, rfl⟩ := spells_append.mp hzs
    obtain ⟨closeParen, last, hclose, hlast, rfl⟩ := spells_cons.mp htail
    simp only [List.length_cons, List.length_append] at hsize hnesting hbody
    obtain ⟨nesting, rfl⟩ := Nat.exists_eq_succ_of_ne_zero (n := nesting) (by omega)
    have hparses : Parses (Parser.statement input nesting) functions body last (behind body) :=
      (hbody last hlast (by omega)).statement hdeclaration hinside (by omega)
    rw [Parser.statement]
    refine .peek ?_
    rw [show keyword.kind = .for from hkeyword]
    refine .advance ?_
    rw [forStatement]
    refine .expectThen hopen ?_
    have hrest := parses_forRest initializer hcondition hincrement hsecond
      hsemicolon hthird hclose hparses (by omega) (by omega)
    cases initializer with
    | none =>
      obtain ⟨clause, ws, hclause, hws, rfl⟩ := spells_cons.mp hfirst
      rw [spells_nil.mp hws]
      refine .peek ?_
      rw [show clause.kind = .semicolon from hclause]
      exact .advance hrest
    | some initializer =>
      have hfirst : Spells initializer.spelling first := hfirst
      have hinitial := hinitial initializer rfl
      cases hinitializer initializer rfl with
      | var hname hvalue =>
        obtain ⟨clause, ws, hclause, hws, rfl⟩ := spells_cons.mp hfirst
        rw [List.length_cons] at hsize hnesting
        refine .peek ?_
        rw [show clause.kind = .var from hclause]
        refine .advance ((Parses.map (parses_varDeclaration hname hvalue hws (by omega)
          (by omega))).andThen hrest fun _ _ ↦ trivial)
      | expression hvalue =>
        have hclause : Parses (expressionStatement input nesting) functions _ first anything :=
          parses_expressionStatement hvalue hfirst (by omega) (by omega)
        obtain ⟨front, back, hfront, _, rfl⟩ := spells_append.mp hfirst
        obtain ⟨t, _, rfl, ht, _⟩ := hvalue.begins hfront
        refine Parses.peek (t := t) ?_
        split
        case h_1 heq | h_2 heq =>
          rw [heq] at ht
          cases ht
        case h_3 => exact (Parses.map hclause).andThen hrest fun _ _ ↦ trivial
      | _ => cases hinitial

theorem var {name : Token} {initializer : Option Expr}
    (hst : (Stmt.var name initializer).WellFormed inside)
    (hts : Spells (Stmt.var name initializer).spelling ts) (hsize : ts.length < input.size) :
    RecognizedStatement input inside (.var name initializer) ts := by
  obtain ⟨keyword, us, hkeyword, hus, rfl⟩ := spells_cons.mp hts
  refine of_declaration rfl fun {nesting functions} _ hnesting ↦ ?_
  cases hst with
  | var hname hinitializer =>
    rw [List.length_cons] at hsize
    rw [show keyword.kind = .var from hkeyword]
    refine .advance ((parses_varDeclaration hname hinitializer hus (by omega) (by omega)).mono ?_)
    exact fun _ _ ↦ trivial

theorem function {f : FunDecl} (hst : (Stmt.function f).WellFormed inside)
    (hts : Spells (Stmt.function f).spelling ts)
    (hbody : ∀ us, Spells f.body.spelling us → us.length < ts.length →
      RecognizedStatement input true f.body us) (hsize : ts.length < input.size) :
    RecognizedStatement input inside (.function f) ts := by
  obtain ⟨keyword, us, hkeyword, hus, rfl⟩ := spells_cons.mp hts
  refine of_declaration rfl fun {nesting functions} _ hnesting ↦ ?_
  cases hst with
  | function hhead _ hdeclaration =>
    rw [List.length_cons] at hsize hbody
    rw [show keyword.kind = .fun from hkeyword]
    have hf : Parses (Parser.function input "function" nesting) functions f us (behind f.body) :=
      parses_function hhead hdeclaration (fun vs hvs hlt ↦ hbody vs hvs (by omega)) hus (by omega)
        (by omega)
    exact .advance (hf.map.mono fun _ h _ ↦ h)

theorem «class» {name : Token} {superclass : Option Reference} {methods : List FunDecl}
    (hst : (Stmt.class name superclass methods).WellFormed inside)
    (hts : Spells (Stmt.class name superclass methods).spelling ts)
    (hbodies : ∀ f ∈ methods, ∀ us, Spells f.body.spelling us → us.length < ts.length →
      RecognizedStatement input true f.body us) (hsize : ts.length < input.size) :
    RecognizedStatement input inside (.class name superclass methods) ts := by
  have hsplit : Spells (.mark .class :: .token name
      :: ((superclass.elim [] fun r ↦ [.mark .less, .token r.name])
        ++ .mark .leftBrace :: (FunDecl.spellings methods ++ [.mark .rightBrace]))) ts := by
    simpa [Stmt.spelling] using hts
  obtain ⟨keyword, us, hkeyword, hus, rfl⟩ := spells_cons.mp hsplit
  obtain ⟨name, vs, rfl, hvs, rfl⟩ := spells_cons.mp hus
  obtain ⟨parent, xs, hparent, hxs, rfl⟩ := spells_append.mp hvs
  obtain ⟨openBrace, ys, hopen, hys, rfl⟩ := spells_cons.mp hxs
  obtain ⟨zs, tail, hzs, htail, rfl⟩ := spells_append.mp hys
  obtain ⟨closeBrace, ws, hclose, hws, rfl⟩ := spells_cons.mp htail
  rw [spells_nil.mp hws] at *
  simp only [List.length_cons, List.length_append, List.length_nil] at hsize hbodies
  refine of_declaration rfl fun {nesting functions} _ hnesting ↦ ?_
  simp only [List.length_cons, List.length_append, List.length_nil] at hnesting
  obtain ⟨nesting, rfl⟩ := Nat.exists_eq_succ_of_ne_zero (n := nesting) (by omega)
  cases hst with
  | «class» hname hsuperclass hheads _ hdeclarations =>
    rw [show keyword.kind = .class from hkeyword]
    refine .advance ?_
    rw [classDeclaration]
    refine .expectThen hname ?_
    have hmethods : Parses (many (fun k ↦ decide (k = .rightBrace))
        (Parser.function input "method" nesting) input.size []) functions methods zs
        (begins .rightBrace) :=
      parses_methods hheads hdeclarations (fun f hf vs hvs hlt ↦ hbodies f hf vs hvs (by omega)) hzs
        (by omega) (by omega)
    have hrest : Parses (do
        let _ ← expect input .leftBrace "'\x7b' before class body"
        let methods ← many (fun k ↦ decide (k = .rightBrace))
          (Parser.function input "method" nesting) input.size []
        let _ ← expect input .rightBrace "'\x7d' after class body"
        return Stmt.class name superclass methods) functions (.class name superclass methods)
        (openBrace :: (zs ++ [closeBrace])) (avoids .else) := by
      exact .expectThen hopen (hmethods.andThen (.expectThen hclose .pure)
        fun rest _ ↦ ⟨closeBrace, rest, rfl, hclose⟩)
    cases superclass with
    | none =>
      rw [spells_nil.mp hparent]
      refine .skipThen hrest fun rest _ ↦ avoids_cons ?_
      rw [show openBrace.kind = .leftBrace from hopen]
      decide
    | some r =>
      obtain ⟨r, distance⟩ := r
      obtain ⟨less, ws, hless, hws, rfl⟩ := spells_cons.mp hparent
      obtain ⟨parent, xs, rfl, hxs, rfl⟩ := spells_cons.mp hws
      rw [spells_nil.mp hxs]
      obtain ⟨hparentKind, rfl⟩ := hsuperclass _ rfl
      have hparse : Parses (expect input .identifier "superclass name") functions r [r] anything :=
        .expect hparentKind
      exact .acceptThen hless (hparse.map.andThen hrest fun _ _ ↦ trivial)

end RecognizedStatement

/-- Every well-formed statement is read back from its spellings. -/
theorem recognizedStatement_of_wellFormed (hst : st.WellFormed inside) (hts : Spells st.spelling ts)
    (hsize : ts.length < input.size) : RecognizedStatement input inside st ts := by
  have hwf := hst
  induction hst generalizing ts with
  | expression hvalue => exact .expression hvalue hts hsize
  | print hvalue => exact .print hvalue hts hsize
  | var => exact .var hwf hts hsize
  | block hbody ih =>
    exact .block hbody hts (fun st hst us hus hlt ↦ ih st hst hus (by omega) (hbody st hst)) hsize
  | branch _ hyes _ hno _ _ ihYes ihNo =>
    exact .branch hwf hts (fun us hus hlt ↦ ihYes hus (by omega) hyes)
      (fun st hst us hus hlt ↦ ihNo st hst hus (by omega) (hno st hst)) hsize
  | loop _ hbody _ ih =>
    exact .loop hwf hts (fun us hus hlt ↦ ih hus (by omega) hbody) hsize
  | forLoop _ _ _ _ hbody _ _ ih =>
    exact .forLoop hwf hts (fun us hus hlt ↦ ih hus (by omega) hbody) hsize
  | function _ hbody _ ih =>
    exact .function hwf hts (fun us hus hlt ↦ ih hus (by omega) hbody) hsize
  | «return» hkeyword hvalue => exact .return hkeyword hvalue hts hsize
  | «class» _ _ _ hbodies _ ih =>
    exact .class hwf hts (fun f hf us hus hlt ↦ ih f hf hus (by omega) (hbodies f hf)) hsize

end Parser

end Lox
