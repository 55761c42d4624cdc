import Lox.Proofs.Syntax.Acceptance.Expression

/-!
# Which programs the parser accepts

What is known of expressions carries over to statements. Two things are new. A return statement is
well-formed only inside of a function, which the parser knows by counting. And an `else` belongs to
the nearest `if`: a statement that could still take an `else` is never in front of one, since its
parser would have taken it.
-/

namespace Lox.Parser

variable {input : Input} {nesting : Nat}

/-! ## Simple statements -/

theorem reads_expressionStatement (hfinish : input.finish.kind = .eof) (inside : Bool) :
    ∀ (nesting : Nat) (s : State), Reads (expressionStatement input nesting) s
      (fun st ↦ st.WellFormed inside ∧ st.isInitializer = true ∧ st.isDeclaration = false)
      Stmt.spelling
  | 0, _ => .tooDeep
  | nesting + 1, s => by
    rw [expressionStatement]
    refine Consumes.andThen ((ReadsExpressions.of_nesting hfinish nesting).expression s)
      fun value s₁ _ _ ts ↦ ?_
    refine Consumes.expect.andThen fun semicolon s₂ _ _ us ↦ .pure ?_
    rintro ⟨rfl, hsemicolon⟩ ⟨hvalue, hts⟩
    exact ⟨⟨.expression hvalue, rfl, rfl⟩, hts.append (.cons hsemicolon .nil)⟩

/-- A variable declaration behind its keyword. -/
theorem consumes_varDeclaration (hfinish : input.finish.kind = .eof) (inside : Bool) :
    ∀ (nesting : Nat) (s : State), Consumes (varDeclaration input nesting) s fun st ts ↦
      (st.WellFormed inside ∧ st.isInitializer = true) ∧
        ∀ t : Token, t.kind = .var → Spells st.spelling (t :: ts)
  | 0, _ => .tooDeep
  | nesting + 1, s => by
    rw [varDeclaration]
    refine Consumes.expect.andThen fun name s₁ _ _ ts ↦ ?_
    refine Consumes.accept.andThen fun equals? s₂ _ _ us ↦ ?_
    cases equals? with
    | none =>
      refine Consumes.expect.andThen fun semicolon s₃ _ _ vs ↦ .pure ?_
      rintro ⟨rfl, hsemicolon⟩ ⟨rfl, _⟩ ⟨rfl, hname⟩
      exact ⟨⟨.var hname fun _ h ↦ absurd h (Option.not_mem_none _), rfl⟩,
        fun t ht ↦ .cons ht (.cons rfl (.cons hsemicolon .nil))⟩
    | some equals =>
      have hinitializer := (ReadsExpressions.of_nesting hfinish nesting).expression s₂
      refine Consumes.andThen
        (R := fun e? ts ↦ ∃ e, e? = some e ∧ e.WellFormed ∧ Spells e.spelling ts)
        (Consumes.map hinitializer fun e ts ⟨he, hts⟩ ↦ ⟨e, rfl, he, hts⟩)
        fun initializer s₃ _ _ vs ↦ ?_
      refine Consumes.expect.andThen fun semicolon s₄ _ _ ws ↦ .pure ?_
      rintro ⟨rfl, hsemicolon⟩ ⟨e, rfl, he, hvs⟩ ⟨rfl, hequals⟩ ⟨rfl, hname⟩
      refine ⟨⟨.var hname fun e' h ↦ ?_, rfl⟩, fun t ht ↦ ?_⟩
      · rw [← Option.mem_some_iff.mp h]
        exact he
      · exact .cons ht (.cons rfl (.cons (hequals equals rfl)
          (hvs.append (.cons hsemicolon .nil))))

/-- A return statement behind its keyword. -/
theorem consumes_returnStatement (hfinish : input.finish.kind = .eof) (keyword : Token) :
    ∀ (nesting : Nat) (s : State), Consumes (returnStatement input keyword nesting) s fun st ts ↦
      keyword.kind = .return → (st.WellFormed s.inside ∧ st.isDeclaration = false) ∧
        Spells st.spelling (keyword :: ts)
  | 0, _ => .tooDeep
  | nesting + 1, s => by
    rw [returnStatement]
    have hrest : ∀ s, Consumes (do
        let value ← expressionUnless input .semicolon nesting
        let _ ← expect input .semicolon "';' after return value"
        return Stmt.return keyword value) s fun st ts ↦ keyword.kind = .return →
          (st.WellFormed true ∧ st.isDeclaration = false) ∧ Spells st.spelling (keyword :: ts) := by
      intro s
      refine Consumes.andThen (reads_expressionUnless hfinish _ nesting s) fun value s₁ _ _ ts ↦ ?_
      refine Consumes.expect.andThen fun semicolon s₂ _ _ us ↦ .pure ?_
      rintro ⟨rfl, hsemicolon⟩ ⟨hvalue, hts⟩ hkeyword
      exact ⟨⟨.return hkeyword hvalue, rfl⟩, .cons rfl (hts.append (.cons hsemicolon .nil))⟩
    refine .get ?_
    by_cases h : s.functions = 0
    · rw [if_pos h]
      exact .report fun s' _ ↦ hrest s'
    · have hinside : s.inside = true := decide_eq_true h
      rw [if_neg h, hinside]
      exact hrest s

theorem consumes_functionHead (what : String) (s : State) :
    Consumes (functionHead input what) s fun head ts ↦ head.1.kind = .identifier ∧
      (∀ p ∈ head.2, p.kind = .identifier) ∧ head.2.length ≤ maxArguments ∧
        Spells (.token head.1 :: .mark .leftParen
          :: Glyph.commaSeparated (head.2.map fun p ↦ [.token p]) ++ [.mark .rightParen]) ts := by
  have hparameters : ∀ s, Reads (listed input "parameters"
      (expect input .identifier "parameter name")) s
      (fun ps ↦ ps.length ≤ maxArguments ∧ ∀ p ∈ ps, p.kind = .identifier)
      fun ps ↦ Glyph.commaSeparated (ps.map fun p ↦ [.token p]) := fun s ↦
    reads_listed fun s' _ ↦
      Consumes.expect.mono fun p ts ⟨hts, hp⟩ ↦ ⟨hp, by rw [hts]; exact .cons rfl .nil⟩
  rw [functionHead]
  refine Consumes.expect.andThen fun name s₁ _ _ ts ↦ ?_
  refine Consumes.expect.andThen fun openParen s₂ _ _ us ↦ ?_
  refine Consumes.andThen (hparameters s₂) fun parameters s₃ _ _ vs ↦ ?_
  refine Consumes.expect.andThen fun closeParen s₄ _ _ ws ↦ .pure ?_
  rintro ⟨rfl, hclose⟩ ⟨⟨hroom, hkinds⟩, hvs⟩ ⟨rfl, hopen⟩ ⟨rfl, hname⟩
  exact ⟨hname, hkinds, hroom, .cons rfl (.cons hopen (hvs.append (.cons hclose .nil)))⟩

/-! ## The dangling else -/

theorem accept_eq_none {kind : Kind} {s s' : State} (h : accept kind s = .ok none s') :
    ∀ t ∈ s'.rest.head?, t.kind ≠ kind := by
  obtain ⟨rest, functions, errors⟩ := s
  cases rest with
  | nil =>
    cases h
    exact fun _ h ↦ absurd h (Option.not_mem_none _)
  | cons t rest =>
    by_cases ht : decide (t.kind = kind) = true
    · rw [accept, acceptIf_eq_some ht] at h
      cases h
    · have hnone : ∀ u ∈ (t :: rest).head?, decide (u.kind = kind) = false := fun u hu ↦ by
        rw [← Option.mem_some_iff.mp hu]
        exact Bool.eq_false_iff.mpr ht
      rw [accept, acceptIf_eq_none hnone] at h
      cases h
      exact fun u hu ↦ of_decide_eq_false (hnone u hu)

/-- A statement that is returned, if it dangles, is not in front of an `else`. -/
def TakesElse (p : Parse Stmt) (s : State) : Prop :=
  Ends p s (fun st s' ↦ st.dangles = true → ∀ t ∈ s'.rest.head?, t.kind ≠ .else) fun _ _ ↦ True

namespace TakesElse

theorem tooDeep {s : State} : TakesElse Parser.tooDeep s := Ends.throw trivial

theorem pure {st : Stmt} {s : State} (h : st.dangles = false) : TakesElse (Pure.pure st) s :=
  Ends.pure fun hst ↦ by rw [h] at hst; cases hst

theorem skip {α : Type} {p : Parse α} {q : α → Parse Stmt} {s : State}
    (h : ∀ a s', TakesElse (q a) s') : TakesElse (p >>= q) s := Ends.skip h

/-- A statement that ends with another one. -/
theorem last {p : Parse Stmt} {g : Stmt → Stmt} {s : State} (hp : TakesElse p s)
    (hg : ∀ st, (g st).dangles = st.dangles) : TakesElse (p >>= fun st ↦ Pure.pure (g st)) s := by
  refine Ends.bind (Ends.mono hp (fun st s' h ↦ Ends.pure fun hst ↦ h ?_) fun _ _ h ↦ h)
  rw [← hg st]
  exact hst

theorem expressionStatement : ∀ nesting s, TakesElse (Parser.expressionStatement input nesting) s
  | 0, _ => .tooDeep
  | nesting + 1, s => by
    rw [Parser.expressionStatement]
    exact .skip fun _ _ ↦ .skip fun _ _ ↦ .pure rfl

theorem returnStatement {keyword : Token} :
    ∀ nesting s, TakesElse (Parser.returnStatement input keyword nesting) s
  | 0, _ => .tooDeep
  | nesting + 1, s => by
    have hrest : ∀ s, TakesElse (do
        let value ← expressionUnless input .semicolon nesting
        let _ ← expect input .semicolon "';' after return value"
        return Stmt.return keyword value) s :=
      fun s ↦ .skip fun _ _ ↦ .skip fun _ _ ↦ .pure rfl
    rw [Parser.returnStatement]
    refine .skip fun _ s' ↦ ?_
    split
    · exact .skip fun _ s'' ↦ hrest s''
    · exact hrest s'

theorem statements : ∀ nesting, (∀ s, TakesElse (Parser.statement input nesting) s) ∧
    ∀ s, TakesElse (Parser.forStatement input nesting) s
  | 0 => ⟨fun _ ↦ .tooDeep, fun _ ↦ .tooDeep⟩
  | nesting + 1 => by
    obtain ⟨ihStatement, ihFor⟩ := statements nesting
    have hfor : ∀ initializer s, TakesElse (do
        let condition ← expressionUnless input .semicolon nesting
        let _ ← expect input .semicolon "';' after loop condition"
        let increment ← expressionUnless input .rightParen nesting
        let _ ← expect input .rightParen "')' after for clauses"
        return .forLoop initializer condition increment (← statement input nesting)) s :=
      fun initializer s ↦ .skip fun _ _ ↦ .skip fun _ _ ↦ .skip fun _ _ ↦ .skip fun _ s' ↦
        .last (ihStatement s') fun _ ↦ rfl
    constructor
    · intro s
      rw [Parser.statement]
      refine .skip fun t s' ↦ ?_
      split
      case h_1 => exact .skip fun _ s' ↦ ihFor s'
      case h_2 =>
        refine .skip fun _ _ ↦ .skip fun _ _ ↦ .skip fun condition _ ↦ .skip fun _ s' ↦ ?_
        exact .last (ihStatement s') fun _ ↦ rfl
      case h_3 =>
        refine .skip fun _ _ ↦ .skip fun _ _ ↦ .skip fun condition _ ↦ .skip fun _ _ ↦
          .skip fun yes s' ↦ ?_
        refine Ends.bind (Ends.intro (fun else? s'' h ↦ ?_) fun _ _ _ ↦ trivial)
        cases else? with
        | some _ => exact last (ihStatement s'') fun _ ↦ rfl
        | none => exact Ends.pure fun _ ↦ accept_eq_none h
      case h_4 => exact .skip fun _ _ ↦ .skip fun _ _ ↦ .skip fun _ _ ↦ .pure rfl
      case h_5 => exact .skip fun _ s' ↦ .returnStatement nesting s'
      case h_6 =>
        rw [← bind_pure_comp]
        exact .skip fun _ _ ↦ .skip fun _ _ ↦ .pure rfl
      case h_7 => exact .expressionStatement nesting s'
    · intro s
      rw [Parser.forStatement]
      refine .skip fun _ _ ↦ .skip fun t s' ↦ ?_
      split
      · exact .skip fun _ s' ↦ hfor _ s'
      · exact .skip fun _ _ ↦ .skip fun _ s' ↦ hfor _ s'
      · exact .skip fun _ s' ↦ hfor _ s'

end TakesElse

/-! ## Statements -/

/-- What the parsers of statements read when they may still make some number of nested calls. The
parsers that start behind a keyword spell the statement only together with that keyword. -/
structure ReadsStatements (input : Input) (nesting : Nat) : Prop where
  declaration : ∀ s, Reads (Parser.declaration input nesting) s
    (fun st? ↦ ∃ st, st? = some st ∧ st.WellFormed s.inside) fun st? ↦ st?.elim [] Stmt.spelling
  classDeclaration : ∀ s, Consumes (Parser.classDeclaration input nesting) s fun st ts ↦
    st.WellFormed s.inside ∧ ∀ t : Token, t.kind = .class → Spells st.spelling (t :: ts)
  function : ∀ what s, Reads (Parser.function input what nesting) s
    (fun f ↦ f.HeadWellFormed ∧ f.body.WellFormed true ∧ f.body.isDeclaration = false)
    FunDecl.spelling
  statement : ∀ s, Reads (Parser.statement input nesting) s
    (fun st ↦ st.WellFormed s.inside ∧ st.isDeclaration = false) Stmt.spelling
  forStatement : ∀ s, Consumes (Parser.forStatement input nesting) s fun st ts ↦
    (st.WellFormed s.inside ∧ st.isDeclaration = false) ∧
      ∀ t : Token, t.kind = .for → Spells st.spelling (t :: ts)
  block : ∀ s, Consumes (Parser.block input nesting) s fun body ts ↦
    (∀ st ∈ body, st.WellFormed s.inside) ∧ Spells (Stmt.spellings body ++ [.mark .rightBrace]) ts

namespace ReadsStatements

theorem zero : ReadsStatements input 0 where
  declaration _ := .tooDeep
  classDeclaration _ := .tooDeep
  function _ _ := .tooDeep
  statement _ := .tooDeep
  forStatement _ := .tooDeep
  block _ := .tooDeep

/-- Where no declaration was given up, the declarations are the statements. -/
theorem statements_of_declarations {inside : Bool} {declarations : List (Option Stmt)}
    (h : ∀ st? ∈ declarations, ∃ st : Stmt, st? = some st ∧ st.WellFormed inside) :
    (∀ st ∈ declarations.filterMap id, st.WellFormed inside) ∧
      (declarations.map fun st? ↦ st?.elim [] Stmt.spelling).flatten
        = Stmt.spellings (declarations.filterMap id) := by
  induction declarations with
  | nil => exact ⟨List.forall_mem_nil _, rfl⟩
  | cons st? declarations ih =>
    obtain ⟨st, rfl, hst⟩ := h st? List.mem_cons_self
    obtain ⟨hwf, hspelling⟩ := ih fun st? hst? ↦ h st? (List.mem_cons_of_mem _ hst?)
    rw [List.filterMap_cons_some (show id (some st) = some st from rfl), List.map_cons,
      List.flatten_cons, hspelling, Stmt.spellings]
    exact ⟨List.forall_mem_cons.mpr ⟨hst, hwf⟩, rfl⟩

theorem declaration_succ (hfinish : input.finish.kind = .eof) (ih : ReadsStatements input nesting)
    (s : State) : Reads (Parser.declaration input (nesting + 1)) s
      (fun st? ↦ ∃ st, st? = some st ∧ st.WellFormed s.inside)
      fun st? ↦ st?.elim [] Stmt.spelling := by
  rw [Parser.declaration]
  suffices h : ∀ {p : Parse Stmt}, Reads p s (Stmt.WellFormed s.inside) Stmt.spelling →
      Reads (recovering p) s (fun st? ↦ ∃ st, st? = some st ∧ st.WellFormed s.inside)
        fun st? ↦ st?.elim [] Stmt.spelling by
    refine h (.peek ?_)
    have hstatement : Reads (Parser.statement input nesting) s (Stmt.WellFormed s.inside)
        Stmt.spelling := (ih.statement s).mono fun st ts hst ↦ ⟨hst.1.1, hst.2⟩
    cases hrest : s.rest with
    | nil =>
      rw [List.headD_nil, hfinish]
      exact hstatement
    | cons t rest =>
      rw [List.headD_cons]
      split
      case h_1 hkind =>
        refine .advance hrest fun s' _ ↦ ?_
        exact (consumes_varDeclaration hfinish s.inside nesting s').mono
          fun st ts hst ↦ ⟨hst.1.1, hst.2 t hkind⟩
      case h_2 hkind =>
        refine .advance hrest fun s' hs' ↦ ?_
        rw [← State.inside_congr hs']
        exact (ih.classDeclaration s').mono fun st ts hst ↦ ⟨hst.1, hst.2 t hkind⟩
      case h_3 hkind =>
        refine .advance hrest fun s' _ ↦ Consumes.map (ih.function "function" s') ?_
        rintro f ts ⟨⟨hhead, hbody, hdeclaration⟩, hts⟩
        exact ⟨.function hhead hbody hdeclaration, .cons hkind hts⟩
      case h_4 => exact hstatement
  intro p hp
  refine hp.recovering.mono ?_
  rintro st? ts ⟨st, rfl, hst, hts⟩
  exact ⟨⟨st, rfl, hst⟩, hts⟩

theorem function_succ (ih : ReadsStatements input nesting) (what : String) (s : State) :
    Reads (Parser.function input what (nesting + 1)) s
      (fun f ↦ f.HeadWellFormed ∧ f.body.WellFormed true ∧ f.body.isDeclaration = false)
      FunDecl.spelling := by
  rw [Parser.function]
  have hbody : ∀ s, Reads (insideFunction (Parser.statement input nesting)) s
      (fun st ↦ st.WellFormed true ∧ st.isDeclaration = false) Stmt.spelling := by
    intro s
    have hinside : ({ s with functions := s.functions + 1 } : State).inside = true :=
      decide_eq_true (Nat.succ_ne_zero _)
    rw [← hinside]
    exact .insideFunction (ih.statement _)
  refine Consumes.andThen (consumes_functionHead what s) fun head s₁ _ _ ts ↦ ?_
  refine Consumes.map (hbody s₁) ?_
  rintro body us ⟨⟨hbody, hdeclaration⟩, hus⟩ ⟨hname, hkinds, hroom, hts⟩
  refine ⟨⟨⟨hname, hkinds, hroom⟩, hbody, hdeclaration⟩, ?_⟩
  have hspells := hts.append hus
  simpa [FunDecl.spelling] using hspells

theorem classDeclaration_succ (ih : ReadsStatements input nesting) (s : State) :
    Consumes (Parser.classDeclaration input (nesting + 1)) s fun st ts ↦
      st.WellFormed s.inside ∧ ∀ t : Token, t.kind = .class → Spells st.spelling (t :: ts) := by
  have hrest : ∀ (name : Token) (superclass : Option Reference) (s' : State), Consumes (do
      let _ ← expect input .leftBrace "'\x7b' before class body"
      let methods ← many (fun k ↦ decide (k = .rightBrace))
        (Parser.function input "method" nesting) input.size []
      let _ ← expect input .rightBrace "'\x7d' after class body"
      return Stmt.class name superclass methods) s' fun st ts ↦ name.kind = .identifier →
        (∀ r ∈ superclass, r.name.kind = .identifier ∧ r.distance = none) →
          st.WellFormed s.inside ∧ ∀ us, Spells (.mark .class :: .token name
            :: superclass.elim [] fun r ↦ [.mark .less, .token r.name]) us →
              Spells st.spelling (us ++ ts) := by
    intro name superclass s'
    refine Consumes.expect.andThen fun openBrace s₁ _ _ ts ↦ ?_
    refine (reads_many _ (fun s _ ↦ ih.function "method" s) _ [] s₁ rfl).andThen
      fun methods s₂ _ _ us ↦ ?_
    refine Consumes.expect.andThen fun closeBrace s₃ _ _ vs ↦ .pure ?_
    rintro ⟨rfl, hclose⟩ ⟨new, rfl, hnew, hus⟩ ⟨rfl, hopen⟩ hname hsuperclass
    refine ⟨.class hname hsuperclass (fun f hf ↦ (hnew f hf).1) (fun f hf ↦ (hnew f hf).2.1)
      fun f hf ↦ (hnew f hf).2.2, fun ws hws ↦ ?_⟩
    rw [← FunDecl.spellings_eq_flatten] at hus
    have hback : Spells (.mark .leftBrace :: FunDecl.spellings methods ++ [.mark .rightBrace])
        (openBrace :: us ++ [closeBrace]) := Spells.append (.cons hopen hus) (.cons hclose .nil)
    simpa [Stmt.spelling] using hws.append hback
  rw [Parser.classDeclaration]
  refine Consumes.expect.andThen fun name s₁ _ _ ts ↦ ?_
  refine Consumes.accept.andThen fun less? s₂ _ _ us ↦ ?_
  cases less? with
  | none =>
    refine (hrest name none s₂).mono ?_
    rintro st vs h ⟨rfl, _⟩ ⟨rfl, hname⟩
    obtain ⟨hst, hspells⟩ := h hname fun _ h ↦ absurd h (Option.not_mem_none _)
    exact ⟨hst, fun t ht ↦ hspells [t, name] (.cons ht (.cons rfl .nil))⟩
  | some less =>
    refine Consumes.andThen (R := fun r? ts ↦ ∃ parent : Token, r? = some ⟨parent, none⟩ ∧
      parent.kind = .identifier ∧ ts = [parent]) (Consumes.map Consumes.expect
        fun parent ts ⟨hts, hparent⟩ ↦ ⟨parent, rfl, hparent, hts⟩) fun r? s₃ _ _ vs ↦ ?_
    refine (hrest name r? s₃).mono ?_
    rintro st ws h ⟨parent, rfl, hparent, rfl⟩ ⟨rfl, hless⟩ ⟨rfl, hname⟩
    obtain ⟨hst, hspells⟩ := h hname fun r hr ↦ by
      rw [← Option.mem_some_iff.mp hr]
      exact ⟨hparent, rfl⟩
    exact ⟨hst, fun t ht ↦ hspells [t, name, less, parent]
      (.cons ht (.cons rfl (.cons (hless less rfl) (.cons rfl .nil))))⟩

/-- Declarations up to the end of a block or of the program. -/
theorem consumes_declarations (ih : ReadsStatements input nesting) (stops : Kind → Bool)
    (s : State) : Consumes (many stops (Parser.declaration input nesting) input.size []) s
      fun declarations ts ↦ (∀ st ∈ declarations.filterMap id, st.WellFormed s.inside) ∧
        Spells (Stmt.spellings (declarations.filterMap id)) ts := by
  have hdeclaration : ∀ s' : State, s'.functions = s.functions →
      Reads (Parser.declaration input nesting) s'
        (fun st? ↦ ∃ st, st? = some st ∧ st.WellFormed s.inside)
        (fun st? ↦ st?.elim [] Stmt.spelling) := by
    intro s' hs'
    rw [← State.inside_congr hs']
    exact ih.declaration s'
  refine (reads_many stops hdeclaration _ [] s rfl).mono ?_
  · rintro declarations ts ⟨new, rfl, hnew, hts⟩
    obtain ⟨hwf, hspelling⟩ := statements_of_declarations hnew
    rw [← hspelling]
    exact ⟨hwf, hts⟩

theorem block_succ (ih : ReadsStatements input nesting) (s : State) :
    Consumes (Parser.block input (nesting + 1)) s fun body ts ↦
      (∀ st ∈ body, st.WellFormed s.inside) ∧
        Spells (Stmt.spellings body ++ [.mark .rightBrace]) ts := by
  rw [Parser.block]
  refine (ih.consumes_declarations _ s).andThen fun declarations s₁ _ _ ts ↦ ?_
  refine Consumes.expect.andThen fun closeBrace s₂ _ _ us ↦ .pure ?_
  rintro ⟨rfl, hclose⟩ ⟨hwf, hts⟩
  exact ⟨hwf, hts.append (.cons hclose .nil)⟩

/-- An `else` behind the first branch of a conditional. Had that branch been able to take it, there
would be none left. -/
theorem consumes_else {yes : Stmt} {s : State}
    (hdangles : yes.dangles = true → ∀ t ∈ s.rest.head?, t.kind ≠ .else) :
    Consumes (accept .else) s fun else? ts ↦ ts = else?.toList ∧ (∀ t ∈ else?, t.kind = .else) ∧
      (else?.isSome → yes.dangles = false) := by
  refine Consumes.accept.mono_of_prefix fun else? ts rest hrest ⟨hts, helse⟩ ↦
    ⟨hts, helse, fun hsome ↦ ?_⟩
  obtain ⟨t, rfl⟩ := Option.isSome_iff_exists.mp hsome
  rw [hts] at hrest
  exact Bool.eq_false_iff.mpr fun hyes ↦ hdangles hyes t (by rw [hrest]; rfl) (helse t rfl)

/-- A `for` statement behind its first clause. -/
theorem consumes_forRest (hfinish : input.finish.kind = .eof) (ih : ReadsStatements input nesting)
    (initializer : Option Stmt) {s s' : State} (hs' : s'.functions = s.functions) :
    Consumes (do
      let condition ← expressionUnless input .semicolon nesting
      let _ ← expect input .semicolon "';' after loop condition"
      let increment ← expressionUnless input .rightParen nesting
      let _ ← expect input .rightParen "')' after for clauses"
      return Stmt.forLoop initializer condition increment (← Parser.statement input nesting)) s'
      fun st ts ↦ (∀ st ∈ initializer, st.WellFormed s.inside) →
        (∀ st ∈ initializer, st.isInitializer = true) →
          (st.WellFormed s.inside ∧ st.isDeclaration = false) ∧ ∀ us, Spells (.mark .for
            :: .mark .leftParen :: Stmt.spellingAfter [] [.mark .semicolon] initializer) us →
              Spells st.spelling (us ++ ts) := by
  refine Consumes.andThen (reads_expressionUnless hfinish _ nesting s')
    fun condition s₁ _ hs₁ ts ↦ ?_
  refine Consumes.expect.andThen fun semicolon s₂ _ hs₂ us ↦ ?_
  refine Consumes.andThen (reads_expressionUnless hfinish _ nesting s₂)
    fun increment s₃ _ hs₃ vs ↦ ?_
  refine Consumes.expect.andThen fun closeParen s₄ _ hs₄ ws ↦ ?_
  refine Consumes.andThen (ih.statement s₄) fun body s₅ _ _ xs ↦ .pure ?_
  rw [State.inside_congr (((hs₄.trans hs₃).trans (hs₂.trans hs₁)).trans hs')]
  rintro ⟨⟨hbody, hdeclaration⟩, hxs⟩ ⟨rfl, hclose⟩ ⟨hincrement, hvs⟩ ⟨rfl, hsemicolon⟩
    ⟨hcondition, hts⟩ hinitializer hinitial
  refine ⟨⟨.forLoop hinitializer hinitial hcondition hincrement hbody hdeclaration, rfl⟩,
    fun ys hys ↦ ?_⟩
  have hback : Spells (.mark .semicolon :: Expr.spellingAfter [] increment
      ++ .mark .rightParen :: body.spelling) (semicolon :: vs ++ closeParen :: xs) :=
    Spells.append (.cons hsemicolon hvs) (.cons hclose hxs)
  simpa [Stmt.spelling] using (hys.append hts).append hback

/-- A `for` statement whose first clause is a statement, of which some tokens may have been taken
already. -/
theorem consumes_forClause (hfinish : input.finish.kind = .eof) (ih : ReadsStatements input nesting)
    (us : List Token) {p : Parse Stmt} {s s' : State} (hs' : s'.functions = s.functions)
    (hp : Consumes p s' fun first vs ↦ (first.WellFormed s.inside ∧ first.isInitializer = true) ∧
      Spells first.spelling (us ++ vs)) :
    Consumes (do
      let initializer ← some <$> p
      let condition ← expressionUnless input .semicolon nesting
      let _ ← expect input .semicolon "';' after loop condition"
      let increment ← expressionUnless input .rightParen nesting
      let _ ← expect input .rightParen "')' after for clauses"
      return Stmt.forLoop initializer condition increment (← Parser.statement input nesting)) s'
      fun st vs ↦ ∀ openParen : Token, openParen.kind = .leftParen →
        (st.WellFormed s.inside ∧ st.isDeclaration = false) ∧
          ∀ t : Token, t.kind = .for → Spells st.spelling (t :: openParen :: (us ++ vs)) := by
  refine Consumes.andThen (R := fun initializer vs ↦ ∃ first, initializer = some first ∧
    (first.WellFormed s.inside ∧ first.isInitializer = true) ∧ Spells first.spelling (us ++ vs))
    (Consumes.map hp fun first vs h ↦ ⟨first, rfl, h⟩) fun initializer s₁ _ hs₁ vs ↦ ?_
  refine (consumes_forRest hfinish ih initializer (hs₁.trans hs')).mono ?_
  rintro st ws h ⟨first, rfl, ⟨hfirst, hinitial⟩, hvs⟩ openParen hopen
  obtain ⟨hst, hspells⟩ := h (by simpa using hfirst) (by simpa using hinitial)
  refine ⟨hst, fun t ht ↦ ?_⟩
  rw [← List.append_assoc]
  exact hspells (t :: openParen :: (us ++ vs)) (.cons ht (.cons hopen hvs))

theorem forStatement_succ (hfinish : input.finish.kind = .eof) (ih : ReadsStatements input nesting)
    (s : State) : Consumes (Parser.forStatement input (nesting + 1)) s fun st ts ↦
      (st.WellFormed s.inside ∧ st.isDeclaration = false) ∧
        ∀ t : Token, t.kind = .for → Spells st.spelling (t :: ts) := by
  rw [Parser.forStatement]
  refine Consumes.expect.andThen fun openParen s₁ _ hs₁ ts ↦ .peek ?_
  have hexpression := (consumes_forClause hfinish ih [] hs₁ ((reads_expressionStatement hfinish
    s.inside nesting s₁).mono fun first vs ⟨⟨hfirst, hinitial, _⟩, hvs⟩ ↦
      ⟨⟨hfirst, hinitial⟩, hvs⟩)).mono
      (S := fun st us ↦ ts = [openParen] ∧ openParen.kind = .leftParen →
        (st.WellFormed s.inside ∧ st.isDeclaration = false) ∧
          ∀ t : Token, t.kind = .for → Spells st.spelling (t :: (ts ++ us)))
      fun st us h ⟨hts, hopen⟩ ↦ by rw [hts]; exact h openParen hopen
  cases hs : s₁.rest with
  | nil =>
    rw [List.headD_nil, hfinish]
    exact hexpression
  | cons t rest =>
    rw [List.headD_cons]
    split
    case h_1 hkind =>
      refine .advance hs fun s₂ hs₂ ↦
        (consumes_forRest hfinish ih none (hs₂.trans hs₁)).mono ?_
      rintro st us h ⟨rfl, hopen⟩
      obtain ⟨hst, hspells⟩ := h (fun _ h ↦ absurd h (Option.not_mem_none _))
        fun _ h ↦ absurd h (Option.not_mem_none _)
      exact ⟨hst, fun u hu ↦ hspells [u, openParen, t] (.cons hu (.cons hopen (.cons hkind .nil)))⟩
    case h_2 hkind =>
      refine .advance hs fun s₂ hs₂ ↦ ?_
      refine (consumes_forClause hfinish ih [t] (hs₂.trans hs₁) ?_).mono ?_
      · exact (consumes_varDeclaration hfinish s.inside nesting s₂).mono
          fun first us ⟨hfirst, hus⟩ ↦ ⟨hfirst, hus t hkind⟩
      rintro st us h ⟨rfl, hopen⟩
      exact h openParen hopen
    case h_3 => exact hexpression

theorem statement_succ (hfinish : input.finish.kind = .eof) (ih : ReadsStatements input nesting)
    (s : State) : Reads (Parser.statement input (nesting + 1)) s
      (fun st ↦ st.WellFormed s.inside ∧ st.isDeclaration = false) Stmt.spelling := by
  have hstatement : ∀ s' : State, s'.functions = s.functions → Reads
      (Parser.statement input nesting) s'
      (fun st ↦ st.WellFormed s.inside ∧ st.isDeclaration = false) Stmt.spelling := by
    intro s' hs'
    rw [← State.inside_congr hs']
    exact ih.statement s'
  have hcondition := (ReadsExpressions.of_nesting hfinish nesting).expression
  rw [Parser.statement]
  refine .peek ?_
  have hexpression : Reads (expressionStatement input nesting) s
      (fun st ↦ st.WellFormed s.inside ∧ st.isDeclaration = false) Stmt.spelling :=
    Consumes.mono (reads_expressionStatement hfinish s.inside nesting s)
      fun st ts ⟨⟨hst, _, hdeclaration⟩, hts⟩ ↦ ⟨⟨hst, hdeclaration⟩, hts⟩
  cases hs : s.rest with
  | nil =>
    rw [List.headD_nil, hfinish]
    exact hexpression
  | cons t rest =>
    rw [List.headD_cons]
    split
    case h_1 hkind =>
      refine .advance hs fun s₁ hs₁ ↦ ?_
      rw [← State.inside_congr hs₁]
      exact (ih.forStatement s₁).mono fun st ts ⟨hst, hts⟩ ↦ ⟨hst, hts t hkind⟩
    case h_2 hkind =>
      refine .advance hs fun s₁ hs₁ ↦ ?_
      refine Consumes.expect.andThen fun openParen s₂ _ hs₂ ts ↦ ?_
      refine Consumes.andThen (hcondition s₂) fun condition s₃ _ hs₃ us ↦ ?_
      refine Consumes.expect.andThen fun closeParen s₄ _ hs₄ vs ↦ ?_
      refine Consumes.andThen (hstatement s₄ ((hs₄.trans hs₃).trans (hs₂.trans hs₁)))
        fun body s₅ _ _ ws ↦ .pure ?_
      rintro ⟨⟨hbody, hdeclaration⟩, hws⟩ ⟨rfl, hclose⟩ ⟨hcondition, hus⟩ ⟨rfl, hopen⟩
      rw [List.append_nil]
      exact ⟨⟨.loop hcondition hbody hdeclaration, rfl⟩,
        .cons hkind (.cons hopen (hus.append (.cons hclose hws)))⟩
    case h_3 hkind =>
      refine .advance hs fun s₁ hs₁ ↦ ?_
      refine Consumes.expect.andThen fun openParen s₂ _ hs₂ ts ↦ ?_
      refine Consumes.andThen (hcondition s₂) fun condition s₃ _ hs₃ us ↦ ?_
      refine Consumes.expect.andThen fun closeParen s₄ _ hs₄ vs ↦ ?_
      have hs₄' := (hs₄.trans hs₃).trans (hs₂.trans hs₁)
      refine Consumes.andThen (hstatement s₄ hs₄') fun yes s₅ hyes hs₅ ws ↦ ?_
      refine Consumes.andThen
        (consumes_else (Ends.of_ok ((TakesElse.statements nesting).1 s₄) hyes))
        fun else? s₆ _ hs₆ xs ↦ ?_
      have hfront : t.kind = .if → openParen.kind = .leftParen → Spells condition.spelling us →
          closeParen.kind = .rightParen → Spells yes.spelling ws →
          Spells (.mark .if :: .mark .leftParen :: condition.spelling
            ++ .mark .rightParen :: yes.spelling) (t :: openParen :: us ++ closeParen :: ws) :=
        fun hkind hopen hus hclose hws ↦
          Spells.append (.cons hkind (.cons hopen hus)) (.cons hclose hws)
      cases else? with
      | none =>
        refine .pure ?_
        rintro ⟨rfl, _⟩ ⟨⟨hyes, hyesDeclaration⟩, hws⟩ ⟨rfl, hclose⟩ ⟨hcondition, hus⟩ ⟨rfl, hopen⟩
        refine ⟨⟨.branch hcondition hyes hyesDeclaration
          (fun _ h ↦ absurd h (Option.not_mem_none _))
          (fun _ h ↦ absurd h (Option.not_mem_none _)) fun h ↦ absurd h Bool.false_ne_true,
          rfl⟩, ?_⟩
        simpa [Stmt.spelling, Stmt.spellingAfter] using hfront hkind hopen hus hclose hws
      | some elseToken =>
        refine Consumes.andThen (hstatement s₆ (hs₆.trans (hs₅.trans hs₄')))
          fun no s₇ _ _ ys ↦ .pure ?_
        rintro ⟨⟨hno, hnoDeclaration⟩, hys⟩ ⟨rfl, helse, hdangles⟩ ⟨⟨hyes, hyesDeclaration⟩, hws⟩
          ⟨rfl, hclose⟩ ⟨hcondition, hus⟩ ⟨rfl, hopen⟩
        refine ⟨⟨.branch hcondition hyes hyesDeclaration (by simpa using hno)
          (by simpa using hnoDeclaration) fun _ ↦ hdangles rfl, rfl⟩, ?_⟩
        have hback : Spells (.mark .else :: no.spelling) (elseToken :: ys) :=
          .cons (helse _ rfl) hys
        simpa [Stmt.spelling, Stmt.spellingAfter]
          using (hfront hkind hopen hus hclose hws).append hback
    case h_4 hkind =>
      refine .advance hs fun s₁ hs₁ ↦ ?_
      refine Consumes.andThen (hcondition s₁) fun value s₂ _ hs₂ ts ↦ ?_
      refine Consumes.expect.andThen fun semicolon s₃ _ hs₃ us ↦ .pure ?_
      rintro ⟨rfl, hsemicolon⟩ ⟨hvalue, hts⟩
      exact ⟨⟨.print hvalue, rfl⟩, .cons hkind (hts.append (.cons hsemicolon .nil))⟩
    case h_5 hkind =>
      refine .advance hs fun s₁ hs₁ ↦ ?_
      rw [← State.inside_congr hs₁]
      exact (consumes_returnStatement hfinish t nesting s₁).mono fun st ts h ↦ h hkind
    case h_6 hkind =>
      refine .advance hs fun s₁ hs₁ ↦ Consumes.map (ih.block s₁) ?_
      rw [State.inside_congr hs₁]
      rintro body ts ⟨hbody, hts⟩
      exact ⟨⟨.block hbody, rfl⟩, .cons hkind hts⟩
    case h_7 => exact hexpression

theorem of_nesting (hfinish : input.finish.kind = .eof) : ∀ nesting, ReadsStatements input nesting
  | 0 => zero
  | nesting + 1 =>
    have ih := of_nesting hfinish nesting
    { declaration := declaration_succ hfinish ih
      classDeclaration := classDeclaration_succ ih
      function := function_succ ih
      statement := statement_succ hfinish ih
      forStatement := forStatement_succ hfinish ih
      block := block_succ ih }

end ReadsStatements

/-! ## Whole inputs -/

/-- Items that nothing stops are read up to the end. -/
theorem rest_eq_nil_of_many {α : Type} {item : Parse α} : ∀ {bound : Nat} {read as : List α}
    {s s' : State}, many (fun _ ↦ false) item bound read s = .ok as s' → s'.rest = []
  | 0, _, _, _, _, h => by cases h
  | bound + 1, read, as, s, s', h => by
    obtain ⟨more, s₁, hcheck, h⟩ := bind_eq_ok h
    cases more with
    | true =>
      obtain ⟨a, s₂, _, h⟩ := bind_eq_ok h
      exact rest_eq_nil_of_many h
    | false =>
      cases h
      obtain ⟨rest, functions, errors⟩ := s
      cases rest with
      | nil =>
        cases hcheck
        rfl
      | cons t rest => cases hcheck

theorem run_eq_ok {α : Type} {p : Input → Parse α} {ts : List Token} {finish : Token} {a : α} :
    run p ts finish = ⟨.ok a, []⟩ ↔
      ∃ s', p ⟨finish, ts.length + 1⟩ ⟨ts, 0, []⟩ = .ok a s' ∧ s'.errors = [] := by
  rw [run]
  cases p ⟨finish, ts.length + 1⟩ ⟨ts, 0, []⟩ with
  | ok b s' => simp
  | error abort s' => simp

end Parser

variable {nesting : Nat} {tokens : List Token} {finish : Token}

/-- A program that is parsed without complaints is well-formed, and spelled by its tokens. -/
theorem wellFormed_of_parseProgram {program : List Stmt} (hfinish : finish.kind = .eof)
    (h : parseProgram nesting tokens finish = ⟨.ok program, []⟩) :
    (∀ st ∈ program, st.WellFormed false) ∧ Spells (Stmt.spellings program) tokens := by
  obtain ⟨s', hprogram, herrors⟩ := Parser.run_eq_ok.mp h
  rw [Parser.program] at hprogram
  obtain ⟨declarations, s₁, hmany, hpure⟩ := bind_eq_ok hprogram
  cases hpure
  have h : Parser.ReadsStatements ⟨finish, tokens.length + 1⟩ nesting := .of_nesting hfinish nesting
  have hreads := h.consumes_declarations (fun _ ↦ false) ⟨tokens, 0, []⟩
  obtain ⟨ts, hts, hwf, hspells⟩ := (Ends.of_ok hreads hmany).2.2 (by rw [herrors])
  rw [Parser.rest_eq_nil_of_many hmany, List.append_nil] at hts
  rw [show tokens = ts from hts]
  exact ⟨hwf, hspells⟩

/-- The same for a single expression. -/
theorem wellFormed_of_parseExpression {e : Expr} (hfinish : finish.kind = .eof)
    (h : parseExpression nesting tokens finish = ⟨.ok e, []⟩) :
    e.WellFormed ∧ Spells e.spelling tokens := by
  obtain ⟨s', hwhole, herrors⟩ := Parser.run_eq_ok.mp h
  rw [Parser.wholeExpression] at hwhole
  obtain ⟨e', s₁, hexpression, hrest⟩ := bind_eq_ok hwhole
  obtain ⟨more, s₂, hcheck, hrest⟩ := bind_eq_ok hrest
  cases more with
  | true => obtain ⟨_, _, hfail, _⟩ := bind_eq_ok hrest; cases hfail
  | false =>
    cases hrest
    have h : Parser.ReadsExpressions ⟨finish, tokens.length + 1⟩ nesting :=
      .of_nesting hfinish nesting
    have hreads := h.expression ⟨tokens, 0, []⟩
    obtain ⟨rest, functions, errors⟩ := s₁
    cases rest with
    | cons t rest => cases hcheck
    | nil =>
      cases hcheck
      obtain ⟨ts, hts, hwf, hspells⟩ := (Ends.of_ok hreads hexpression).2.2 (by
        rw [show errors = [] from herrors])
      rw [List.append_nil] at hts
      rw [show tokens = ts from hts]
      exact ⟨hwf, hspells⟩

end Lox
