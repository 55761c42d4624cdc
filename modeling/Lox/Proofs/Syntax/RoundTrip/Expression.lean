import Lox.Proofs.Syntax.Recognition

/-!
# Reading expressions back

A well-formed expression is read back from each of its spellings. The parser of a rank reads every
expression of that rank or a tighter one, up to a token that would make it a greater expression of
that rank. So the proof follows the ranks: an expression is read by the parser of its own rank, and
each looser parser passes it on, since it finds no operator of its own behind it.

An expression of some rank may begin with another one of the same rank, which is then read in an
earlier round of the same loop. For these expressions the induction is not on what the whole parser
returns, but on where its loop has come to.

Every call of a parser uses up one of the nested calls that it may make, and there are ten ranks. A
nested expression takes fewer tokens than the expression around it, so ten calls for each token are
enough.
-/

namespace Lox

/-! ## What may follow an expression -/

/-- The rank of the expressions that a token continues. -/
def Kind.tightness? : Kind → Option Nat
  | .equal => some 0
  | .leftParen | .dot => some Rank.call
  | kind => kind.level?.map Level.rank

theorem Kind.tightness?_of_level? {kind : Kind} {level : Level} (h : kind.level? = some level) :
    kind.tightness? = some level.rank := by
  cases kind <;> cases h <;> rfl

/-- What follows does not continue an expression of a rank or of a looser one. -/
def stopsAt (rank : Nat) : List Token → Prop :=
  fun rest ↦ ∀ t ∈ rest.head?, ∀ tightness ∈ t.kind.tightness?, tightness < rank

theorem stopsAt_mono {rank rank' : Nat} {rest : List Token} (hle : rank ≤ rank')
    (h : stopsAt rank rest) : stopsAt rank' rest :=
  fun t ht tightness hk ↦ Nat.lt_of_lt_of_le (h t ht tightness hk) hle

theorem stopsAt_cons {rank : Nat} {t : Token} {rest : List Token}
    (h : ∀ tightness ∈ t.kind.tightness?, tightness < rank) : stopsAt rank (t :: rest) := by
  intro u hu
  rw [← Option.mem_some_iff.mp hu]
  exact h

/-- Nothing continues a primary expression as such. -/
theorem stopsAt_primary (rest : List Token) : stopsAt Rank.primary rest := by
  intro t _ tightness hk
  generalize t.kind = kind at hk
  cases kind <;> cases hk <;> decide

theorem avoids_of_stopsAt {rank tightness : Nat} {kind : Kind} {rest : List Token}
    (hkind : kind.tightness? = some tightness) (hrank : rank ≤ tightness)
    (h : stopsAt rank rest) : Parser.avoids kind rest := by
  intro t ht heq
  exact absurd (h t ht tightness (by rw [heq, hkind]; rfl)) (Nat.not_lt_of_le hrank)

theorem not_operator_of_stopsAt {level : Level} {rest : List Token} (h : stopsAt level.rank rest) :
    ∀ t ∈ rest.head?, level.hasOperator t.kind = false := by
  intro t ht
  refine Bool.eq_false_iff.mpr fun hoperator ↦ ?_
  have hlevel := Kind.tightness?_of_level? (Level.hasOperator_iff.mp hoperator)
  exact Nat.lt_irrefl _ (h t ht level.rank (by rw [hlevel]; rfl))

/-! ## How an expression begins -/

/-- Whether a token of this kind begins a primary expression. -/
def Kind.startsPrimary : Kind → Bool
  | .false | .true | .nil | .number | .string | .this | .super | .identifier | .leftParen => .true
  | _ => .false

/-- Whether a token of this kind begins an expression. -/
def Kind.startsExpression : Kind → Bool
  | .bang | .minus => .true
  | kind => kind.startsPrimary

theorem Kind.startsExpression_of_startsPrimary {kind : Kind} (h : kind.startsPrimary = .true) :
    kind.startsExpression = .true := by
  cases kind <;> first | rfl | cases h

theorem Token.Denotes.startsPrimary {t : Token} {value : Literal} (h : t.Denotes value) :
    t.kind.startsPrimary = true := by
  unfold Token.Denotes at h
  generalize t.kind = kind at h
  cases kind <;> first | rfl | cases h

theorem Expr.rank_le_primary (e : Expr) : e.rank ≤ Rank.primary := by
  have hlevel : ∀ operator : Token, operator.kind.level?.elim 0 Level.rank ≤ Rank.primary := by
    intro operator
    cases operator.kind.level? with
    | none => decide
    | some level => cases level <;> decide
  cases e with
  | binary _ operator _ | logical _ operator _ => exact hlevel operator
  | _ => exact of_decide_eq_true rfl

/-- An expression begins with a token of a primary one, unless it is loose enough to begin with a
prefix operator. -/
theorem Expr.WellFormed.begins {e : Expr} (h : e.WellFormed) {ts : List Token}
    (hts : Spells e.spelling ts) : ∃ t us, ts = t :: us ∧ t.kind.startsExpression = true ∧
      (Rank.call ≤ e.rank → t.kind.startsPrimary = true) := by
  -- A token that begins a primary expression will do at every rank.
  have primary : ∀ {ts : List Token} {rank : Nat}, (∃ t us, ts = t :: us ∧
      t.kind.startsPrimary = true) → ∃ t us, ts = t :: us ∧ t.kind.startsExpression = true ∧
        (Rank.call ≤ rank → t.kind.startsPrimary = true) :=
    fun ⟨t, us, hts, ht⟩ ↦ ⟨t, us, hts, Kind.startsExpression_of_startsPrimary ht, fun _ ↦ ht⟩
  have row : ∀ {left : Expr} {level : Level} {operator : Token} {us : List Token},
      operator.kind.level? = some level →
      (∃ t vs, us = t :: vs ∧ t.kind.startsExpression = true ∧
        (Rank.call ≤ left.rank → t.kind.startsPrimary = true)) → ∀ ws,
      ∃ t vs, us ++ ws = t :: vs ∧ t.kind.startsExpression = true ∧
        (Rank.call ≤ operator.kind.level?.elim 0 Level.rank → t.kind.startsPrimary = true) := by
    rintro left level operator us hlevel ⟨t, vs, rfl, ht, _⟩ ws
    refine ⟨t, vs ++ ws, rfl, ht, fun hcall ↦ ?_⟩
    rw [hlevel, Option.elim_some] at hcall
    exact absurd (Nat.lt_of_lt_of_le level.rank_lt_unary (by decide)) (Nat.not_lt_of_le hcall)
  induction h generalizing ts with
  | literal =>
    obtain ⟨t, us, ht, _, rfl⟩ := spells_cons.mp hts
    exact primary ⟨t, us, rfl, Token.Denotes.startsPrimary ht⟩
  | group =>
    obtain ⟨t, us, ht, _, rfl⟩ := spells_cons.mp hts
    exact primary ⟨t, us, rfl, by rw [show t.kind = .leftParen from ht]; rfl⟩
  | unary hoperator =>
    obtain ⟨t, us, rfl, _, rfl⟩ := spells_cons.mp hts
    refine ⟨_, us, rfl, ?_, fun hcall ↦ ?_⟩
    · rcases hoperator with h | h <;> rw [h] <;> rfl
    · exact absurd (show Rank.call ≤ Rank.unary from hcall) (by decide)
  | binary hlevel _ _ _ _ _ ih | logical hlevel _ _ _ _ _ ih =>
    obtain ⟨us, ws, hus, _, rfl⟩ := spells_append.mp hts
    exact row hlevel (ih hus) ws
  | var hname | assign hname =>
    obtain ⟨t, us, rfl, _, rfl⟩ := spells_cons.mp hts
    exact primary ⟨_, us, rfl, by rw [hname]; rfl⟩
  | self hkeyword | inherited hkeyword =>
    obtain ⟨t, us, rfl, _, rfl⟩ := spells_cons.mp hts
    exact primary ⟨_, us, rfl, by rw [hkeyword]; rfl⟩
  | property _ hrank _ ih | setProperty _ hrank _ _ ih =>
    obtain ⟨us, ws, hus, _, rfl⟩ := spells_append.mp hts
    obtain ⟨t, vs, rfl, _, ht⟩ := ih hus
    exact primary ⟨t, vs ++ ws, rfl, ht hrank⟩
  | call _ hrank _ _ _ ih =>
    rw [Expr.spelling, List.append_assoc] at hts
    obtain ⟨us, ws, hus, _, rfl⟩ := spells_append.mp hts
    obtain ⟨t, vs, rfl, _, ht⟩ := ih hus
    exact primary ⟨t, vs ++ ws, rfl, ht hrank⟩

namespace Parser

variable {input : Input} {nesting functions rank : Nat} {e : Expr} {ts : List Token}

/-! ## Parsers by rank -/

/-- The parser of the expressions that are at least of a rank. -/
def atRank (input : Input) (nesting : Nat) : Nat → Parse Expr
  | 0 => assignment input nesting
  | 1 => binary input nesting .or
  | 2 => binary input nesting .and
  | 3 => binary input nesting .equality
  | 4 => binary input nesting .comparison
  | 5 => binary input nesting .sum
  | 6 => binary input nesting .product
  | 7 => unary input nesting
  | 8 => call input nesting
  | _ => primary input nesting

theorem atRank_level (level : Level) :
    atRank input nesting level.rank = binary input nesting level := by
  cases level <;> rfl

/-- The operands of a level are read by the parser of the next rank. -/
theorem binary_eq_chain (level : Level) : binary input (nesting + 1) level = (do
      let left ← atRank input nesting (level.rank + 1)
      chain (atRank input nesting (level.rank + 1)) level.hasOperator level.join input.size
        left) := by
  rw [binary]
  cases level <;> rfl

/-- Where no operator of a level follows, a row of its operands is complete. -/
theorem parses_chain_end {level : Level} {operand : Parse Expr} (left : Nat) :
    Parses (chain operand level.hasOperator level.join (left + 1) e) functions e []
      (stopsAt level.rank) := by
  rw [chain, ← List.append_nil []]
  exact Parses.acceptIf_none.andThen .pure fun _ ↦ not_operator_of_stopsAt

/-- Where neither a call nor a property follows, a row of them is complete. -/
theorem parses_suffixes_end {arguments : Expr → Parse Expr} (left : Nat) :
    Parses (suffixes input arguments (left + 1) e) functions e [] (stopsAt Rank.call) := by
  rw [suffixes]
  refine .skipThen (.skipThen .pure ?_) ?_
  · exact fun _ ↦ avoids_of_stopsAt rfl (Nat.le_refl _)
  · exact fun _ ↦ avoids_of_stopsAt rfl (Nat.le_refl _)

/-- What the parser of a rank reads, the parser of the next looser rank reads as well, if what
follows stops it. -/
theorem Parses.looser (hrank : rank < Rank.primary)
    (hbegins : rank = Rank.unary → ∀ t ∈ ts.head?, t.kind.startsPrimary = true)
    (hts : ts ≠ []) (hsize : ts.length < input.size)
    (h : Parses (atRank input nesting (rank + 1)) functions e ts (stopsAt (rank + 1))) :
    Parses (atRank input (nesting + 1) rank) functions e ts (stopsAt rank) := by
  -- The parser of a level finds no operator.
  have hlevel : ∀ level : Level, level.rank = rank →
      Parses (atRank input (nesting + 1) rank) functions e ts (stopsAt rank) := by
    rintro level rfl
    rw [atRank_level, binary_eq_chain]
    exact (Continues.of_parses h).finish hsize parses_chain_end
      fun _ ↦ stopsAt_mono (Nat.le_succ _)
  match rank, hrank with
  | 0, _ =>
    rw [atRank, assignment, ← List.append_nil ts]
    refine h.andThen (.skipThen .pure fun rest hrest ↦ ?_) fun _ ↦ stopsAt_mono (Nat.le_succ _)
    exact avoids_of_stopsAt rfl (Nat.le_refl 0) hrest
  | 1, _ => exact hlevel .or rfl
  | 2, _ => exact hlevel .and rfl
  | 3, _ => exact hlevel .equality rfl
  | 4, _ => exact hlevel .comparison rfl
  | 5, _ => exact hlevel .sum rfl
  | 6, _ => exact hlevel .product rfl
  | 7, _ =>
    obtain ⟨t, us, rfl⟩ := List.exists_cons_of_ne_nil hts
    have hkind := hbegins rfl t rfl
    rw [atRank, unary]
    refine Parses.acceptIf_none.andThen (.mono h fun _ ↦ stopsAt_mono (Nat.le_succ _))
      fun rest _ u hu ↦ ?_
    rw [← Option.mem_some_iff.mp hu]
    refine decide_eq_false fun hsign ↦ ?_
    rcases hsign with hsign | hsign <;> rw [hsign] at hkind <;> cases hkind
  | 8, _ =>
    rw [atRank, call]
    exact (Continues.of_parses h).finish hsize parses_suffixes_end
      fun _ ↦ stopsAt_mono (Nat.le_succ _)

/-- What the parser of an expression's own rank reads, all looser parsers read. The other way round,
each of them needs one nested call more. -/
theorem Parses.atRank_of_le {bound : Nat} (hle : rank ≤ bound) (hbound : bound ≤ Rank.primary)
    (hbegins : Rank.call ≤ bound → ∀ t ∈ ts.head?, t.kind.startsPrimary = true)
    (hts : ts ≠ []) (hsize : ts.length < input.size)
    (h : ∀ {nesting}, 10 * ts.length ≤ nesting + bound →
      Parses (atRank input nesting bound) functions e ts (stopsAt bound))
    (hnesting : 10 * ts.length ≤ nesting + rank) :
    Parses (atRank input nesting rank) functions e ts (stopsAt rank) := by
  induction hle with
  | refl => exact h hnesting
  | @step bound hle ih =>
    have hlength := List.length_pos_iff.mpr hts
    have hprimary : Rank.primary = 9 := rfl
    refine ih (by omega) (fun hcall ↦ hbegins (Nat.le_succ_of_le hcall)) fun {nesting} hnesting ↦ ?_
    obtain ⟨nesting, rfl⟩ := Nat.exists_eq_succ_of_ne_zero (n := nesting) (by omega)
    refine Parses.looser (by omega) (fun hunary ↦ hbegins ?_) hts hsize (h (by omega))
    rw [hunary]
    decide

/-! ## Expressions that are read back -/

/-- On some tokens an expression is what every parser of its rank or a looser one reads, and it may
be an earlier part of a row of operands, of calls or of properties. -/
structure Recognized (input : Input) (e : Expr) (ts : List Token) : Prop where
  parses : ∀ {rank nesting functions}, rank ≤ e.rank → 10 * ts.length ≤ nesting + rank →
    Parses (atRank input nesting rank) functions e ts (stopsAt rank)
  chained : ∀ {level : Level} {nesting functions}, level.rank ≤ e.rank →
    10 * ts.length ≤ nesting + (level.rank + 1) →
    Continues (atRank input nesting (level.rank + 1))
      (chain (atRank input nesting (level.rank + 1)) level.hasOperator level.join)
      functions e ts (stopsAt (level.rank + 1))
  suffixed : ∀ {nesting functions}, Rank.call ≤ e.rank → 10 * ts.length ≤ nesting + Rank.primary →
    Continues (primary input nesting) (suffixes input (callArguments input nesting))
      functions e ts anything

namespace Recognized

/-- It is enough to look at the parser of the rank of the expression, and at its loop. -/
theorem of_rank (he : e.WellFormed) (hts : Spells e.spelling ts) (hsize : ts.length < input.size)
    (hparses : ∀ {nesting functions}, 10 * ts.length ≤ nesting + e.rank →
      Parses (atRank input nesting e.rank) functions e ts (stopsAt e.rank))
    (hchained : ∀ {level : Level} {nesting functions}, level.rank = e.rank →
      10 * ts.length ≤ nesting + (level.rank + 1) →
      Continues (atRank input nesting (level.rank + 1))
        (chain (atRank input nesting (level.rank + 1)) level.hasOperator level.join)
        functions e ts (stopsAt (level.rank + 1)))
    (hsuffixed : ∀ {nesting functions}, Rank.call = e.rank →
      10 * ts.length ≤ nesting + Rank.primary →
      Continues (primary input nesting) (suffixes input (callArguments input nesting))
        functions e ts anything) : Recognized input e ts := by
  obtain ⟨t, us, rfl, _, hprimary⟩ := he.begins hts
  have hparses' : ∀ {rank nesting functions}, rank ≤ e.rank →
      10 * (t :: us).length ≤ nesting + rank →
      Parses (atRank input nesting rank) functions e (t :: us) (stopsAt rank) :=
    fun hle ↦ Parses.atRank_of_le hle e.rank_le_primary
      (fun hcall u hu ↦ by rw [← Option.mem_some_iff.mp hu]; exact hprimary hcall)
      (List.cons_ne_nil _ _) hsize hparses
  refine ⟨hparses', fun {level nesting functions} hle hnesting ↦ ?_,
    fun {nesting functions} hle hnesting ↦ ?_⟩
  · rcases Nat.eq_or_lt_of_le hle with heq | hlt
    · exact hchained heq hnesting
    · exact .of_parses (hparses' hlt hnesting)
  · rcases Nat.eq_or_lt_of_le hle with heq | hlt
    · exact hsuffixed heq hnesting
    · exact .of_parses ((hparses' hlt hnesting).mono fun rest _ ↦ stopsAt_primary rest)

/-- A primary expression needs no loop. -/
theorem of_primary (he : e.WellFormed) (hts : Spells e.spelling ts) (hsize : ts.length < input.size)
    (hrank : e.rank = Rank.primary)
    (hparses : ∀ {nesting functions}, 10 * ts.length ≤ nesting + 10 →
      Parses (primary input (nesting + 1)) functions e ts anything) : Recognized input e ts := by
  obtain ⟨t, us, rfl, _⟩ := he.begins hts
  refine of_rank he hts hsize (fun {nesting functions} hnesting ↦ ?_)
    (fun {level _ _} h ↦ ?_) fun h ↦ ?_
  · rw [hrank] at hnesting ⊢
    rw [List.length_cons, show Rank.primary = 9 from rfl] at hnesting
    obtain ⟨nesting, rfl⟩ := Nat.exists_eq_succ_of_ne_zero (n := nesting) (by omega)
    exact (hparses (by rw [List.length_cons]; omega)).mono fun _ _ ↦ trivial
  · have hlt := level.rank_lt_unary
    rw [h, hrank] at hlt
    exact absurd hlt (by decide)
  · rw [hrank] at h
    exact absurd h (by decide)

/-- A call or a property is read as a row of them. -/
theorem of_suffixed (he : e.WellFormed) (hts : Spells e.spelling ts)
    (hsize : ts.length < input.size) (hrank : e.rank = Rank.call)
    (hsuffixed : ∀ {nesting functions}, 10 * ts.length ≤ nesting + Rank.primary →
      Continues (primary input nesting) (suffixes input (callArguments input nesting))
        functions e ts anything) : Recognized input e ts := by
  obtain ⟨t, us, rfl, _⟩ := he.begins hts
  refine of_rank he hts hsize (fun {nesting functions} hnesting ↦ ?_)
    (fun {level _ _} h ↦ ?_) fun _ ↦ hsuffixed
  · rw [hrank] at hnesting ⊢
    rw [List.length_cons, show Rank.call = 8 from rfl] at hnesting
    obtain ⟨nesting, rfl⟩ := Nat.exists_eq_succ_of_ne_zero (n := nesting) (by omega)
    rw [show Rank.call = 8 from rfl, atRank, call]
    refine (hsuffixed ?_).finish hsize parses_suffixes_end fun _ _ ↦ trivial
    rw [List.length_cons, show Rank.primary = 9 from rfl]
    omega
  · have hlt := level.rank_lt_unary
    rw [h, hrank] at hlt
    exact absurd hlt (by decide)

theorem literal {value : Literal} {t : Token} (ht : t.Denotes value) (hsize : 1 < input.size) :
    Recognized input (.literal value) [t] := by
  refine of_primary .literal (.cons ht .nil) hsize rfl fun _ ↦ ?_
  rw [primary]
  refine .peek ?_
  unfold Token.Denotes at ht
  split at ht
  case h_1 hkind | h_2 hkind | h_3 hkind | h_4 hkind | h_5 hkind =>
    subst ht
    rw [hkind]
    exact .advance .pure
  case h_6 => exact ht.elim

theorem var {name : Token} (hname : name.kind = .identifier) (hsize : 1 < input.size) :
    Recognized input (.var ⟨name, none⟩) [name] := by
  refine of_primary (.var hname) (.cons rfl .nil) hsize rfl fun _ ↦ ?_
  rw [primary]
  refine .peek ?_
  rw [hname]
  exact .advance .pure

theorem self {keyword : Token} (hkeyword : keyword.kind = .this) (hsize : 1 < input.size) :
    Recognized input (.self ⟨keyword, none⟩) [keyword] := by
  refine of_primary (.self hkeyword) (.cons rfl .nil) hsize rfl fun _ ↦ ?_
  rw [primary]
  refine .peek ?_
  rw [hkeyword]
  exact .advance .pure

theorem inherited {keyword dot method : Token} (hkeyword : keyword.kind = .super)
    (hdot : dot.kind = .dot) (hmethod : method.kind = .identifier) (hsize : 3 < input.size) :
    Recognized input (.inherited ⟨keyword, none⟩ method) [keyword, dot, method] := by
  refine of_primary (.inherited hkeyword hmethod)
    (.cons rfl (.cons hdot (.cons rfl .nil))) hsize rfl
    fun _ ↦ ?_
  rw [primary]
  refine .peek ?_
  rw [hkeyword]
  exact .advance (.expectThen hdot (.expectThen hmethod .pure))

/-- The outermost parser needs one nested call more than that of assignments. -/
theorem parses_expression (h : Recognized input e ts)
    (hnesting : 10 * ts.length < nesting) {follow : List Token → Prop}
    (hfollow : ∀ rest, follow rest → stopsAt 0 rest) :
    Parses (expression input nesting) functions e ts follow := by
  obtain ⟨nesting, rfl⟩ := Nat.exists_eq_succ_of_ne_zero (n := nesting) (by omega)
  rw [expression]
  exact (h.parses (Nat.zero_le _) (by omega)).mono hfollow

theorem stopsAt_of_begins {kind : Kind} {rest : List Token} (hkind : kind.tightness? = none)
    (h : begins kind rest) : stopsAt rank rest := by
  obtain ⟨t, us, rfl, ht⟩ := h
  refine stopsAt_cons ?_
  rw [ht, hkind]
  exact fun _ h ↦ absurd h (Option.not_mem_none _)

theorem group {inner : Expr} {openParen closeParen : Token} {us : List Token}
    (h : Recognized input inner us) (hinner : inner.WellFormed) (hus : Spells inner.spelling us)
    (hopen : openParen.kind = .leftParen) (hclose : closeParen.kind = .rightParen)
    (hsize : (openParen :: (us ++ [closeParen])).length < input.size) :
    Recognized input (.group inner) (openParen :: (us ++ [closeParen])) := by
  refine of_primary (.group hinner) (.cons hopen (hus.append (.cons hclose .nil))) hsize rfl
    fun hnesting ↦ ?_
  rw [List.length_cons, List.length_append, List.length_singleton] at hnesting
  rw [primary]
  refine .peek ?_
  rw [hopen]
  refine .advance ((h.parses_expression (by omega) fun _ ↦ stopsAt_of_begins rfl).andThen
    (.expectThen hclose .pure) fun rest _ ↦ ⟨closeParen, rest, rfl, hclose⟩)

theorem unary {operator : Token} {operand : Expr} {us : List Token}
    (h : Recognized input operand us) (hoperator : operator.kind = .bang ∨ operator.kind = .minus)
    (hoperand : operand.WellFormed) (hrank : Rank.unary ≤ operand.rank)
    (hus : Spells operand.spelling us) (hsize : (operator :: us).length < input.size) :
    Recognized input (.unary operator operand) (operator :: us) := by
  refine of_rank (.unary hoperator hoperand hrank) (.cons rfl hus) hsize
    (fun {nesting functions} hnesting ↦ ?_) (fun {level _ _} hlevel ↦ ?_)
    fun hcall ↦ absurd (show Rank.call = Rank.unary from hcall) (by decide)
  · rw [List.length_cons, show (Expr.unary operator operand).rank = 7 from rfl] at hnesting
    obtain ⟨nesting, rfl⟩ := Nat.exists_eq_succ_of_ne_zero (n := nesting) (by omega)
    rw [show (Expr.unary operator operand).rank = 7 from rfl, atRank, Parser.unary]
    exact Parses.andThen (.acceptIf (t := operator) (decide_eq_true hoperator))
      (Parses.map (h.parses hrank (by omega))) fun _ _ ↦ trivial
  · exact absurd hlevel (Nat.ne_of_lt level.rank_lt_unary)

theorem join {level : Level} {left right : Expr} {operator : Token} {us vs : List Token}
    (hleft : Recognized input left us) (hright : Recognized input right vs)
    (hlevel : operator.kind.level? = some level) (hleftWellFormed : left.WellFormed)
    (hleftRank : level.rank ≤ left.rank) (hrightWellFormed : right.WellFormed)
    (hrightRank : level.rank < right.rank) (hus : Spells left.spelling us)
    (hvs : Spells right.spelling vs) (hsize : (us ++ operator :: vs).length < input.size) :
    Recognized input (level.join left operator right) (us ++ operator :: vs) := by
  have hrank : (level.join left operator right).rank = level.rank := level.rank_join hlevel
  have hchained : ∀ {nesting functions},
      10 * (us ++ operator :: vs).length ≤ nesting + (level.rank + 1) →
      Continues (atRank input nesting (level.rank + 1))
        (chain (atRank input nesting (level.rank + 1)) level.hasOperator level.join)
        functions (level.join left operator right) (us ++ operator :: vs)
        (stopsAt (level.rank + 1)) := by
    intro nesting functions hnesting
    rw [List.length_append, List.length_cons] at hnesting
    refine (hleft.chained hleftRank (by omega)).step (List.cons_ne_nil _ _)
      (fun rest errors left' hrest ↦ ?_) fun rest hrest ↦ stopsAt_cons ?_
    · have hoperand : Parses (atRank input nesting (level.rank + 1)) functions right vs
        (stopsAt (level.rank + 1)) := hright.parses hrightRank (by omega)
      rw [chain, List.cons_append,
        bind_of_ok (acceptIf_eq_some (Level.hasOperator_iff.mpr hlevel))]
      exact bind_of_ok (hoperand rest errors hrest)
    · rw [Kind.tightness?_of_level? hlevel]
      intro tightness h
      rw [← Option.mem_some_iff.mp h]
      exact Nat.lt_succ_self _
  have hts : Spells (level.join left operator right).spelling (us ++ operator :: vs) := by
    rw [Level.spelling_join]
    exact hus.append (.cons rfl hvs)
  have hwellFormed := Level.wellFormed_join hlevel hleftWellFormed hleftRank hrightWellFormed
    hrightRank
  refine of_rank hwellFormed hts hsize (fun {nesting functions} hnesting ↦ ?_)
    (fun {level' _ _} h hnesting ↦ ?_) fun hcall ↦ ?_
  · rw [hrank] at hnesting ⊢
    rw [List.length_append, List.length_cons] at hnesting
    have hlt := level.rank_lt_unary
    rw [show Rank.unary = 7 from rfl] at hlt
    obtain ⟨nesting, rfl⟩ := Nat.exists_eq_succ_of_ne_zero (n := nesting) (by omega)
    rw [atRank_level, binary_eq_chain]
    refine (hchained ?_).finish hsize parses_chain_end fun _ ↦ stopsAt_mono (Nat.le_succ _)
    rw [List.length_append, List.length_cons]
    omega
  · have heq : level' = level := by
      rw [hrank] at h
      cases level' <;> cases level <;> first | rfl | cases h
    subst heq
    exact hchained hnesting
  · rw [hrank] at hcall
    exact absurd hcall (Nat.ne_of_gt (Nat.lt_trans level.rank_lt_unary (by decide)))

theorem property {object : Expr} {dot name : Token} {us : List Token}
    (h : Recognized input object us) (hobject : object.WellFormed) (hrank : Rank.call ≤ object.rank)
    (hus : Spells object.spelling us) (hdot : dot.kind = .dot) (hname : name.kind = .identifier)
    (hsize : (us ++ [dot, name]).length < input.size) :
    Recognized input (.property object name) (us ++ [dot, name]) := by
  refine of_suffixed (.property hobject hrank hname)
    (hus.append (.cons hdot (.cons rfl .nil))) hsize rfl fun {nesting functions} hnesting ↦ ?_
  rw [List.length_append] at hnesting
  refine (h.suffixed hrank (by omega)).step (List.cons_ne_nil _ _)
    (fun rest errors left _ ↦ ?_) fun _ _ ↦ trivial
  have hparen : avoids .leftParen (dot :: name :: rest) := by
    intro t ht heq
    rw [← Option.mem_some_iff.mp ht, hdot] at heq
    cases heq
  rw [suffixes]
  refine (bind_of_ok (Parses.accept_none (dot :: name :: rest) errors hparen)).trans ?_
  refine (bind_of_ok (Parses.accept hdot (name :: rest) errors trivial)).trans ?_
  exact bind_of_ok (Parses.expect hname rest errors trivial)

theorem call {callee : Expr} {openParen closeParen : Token} {arguments : List Expr}
    {us vs : List Token} (h : Recognized input callee us) (hcallee : callee.WellFormed)
    (hrank : Rank.call ≤ callee.rank) (hus : Spells callee.spelling us)
    (hopen : openParen.kind = .leftParen) (hclose : closeParen.kind = .rightParen)
    (hroom : arguments.length ≤ maxArguments) (harguments : ∀ e ∈ arguments, e.WellFormed)
    (hvs : Spells (Glyph.commaSeparated (arguments.map Expr.spelling)) vs)
    (hrecognized : ∀ e ∈ arguments, ∀ ts, Spells e.spelling ts → ts.length ≤ vs.length →
      Recognized input e ts)
    (hsize : (us ++ openParen :: (vs ++ [closeParen])).length < input.size) :
    Recognized input (.call callee closeParen arguments)
      (us ++ openParen :: (vs ++ [closeParen])) := by
  have hts : Spells (Expr.call callee closeParen arguments).spelling
      (us ++ openParen :: (vs ++ [closeParen])) := by
    rw [Expr.spelling, Expr.spellings_eq_map, List.append_assoc]
    exact hus.append (.cons hopen (hvs.append (.cons rfl .nil)))
  refine of_suffixed (.call hcallee hrank hclose hroom harguments) hts hsize rfl
    fun {nesting functions} hnesting ↦ ?_
  simp only [List.length_append, List.length_cons, List.length_nil] at hnesting hsize
  refine (h.suffixed hrank (by omega)).step (List.cons_ne_nil _ _)
    (fun rest errors left _ ↦ ?_) fun _ _ ↦ trivial
  have hlist : Parses (callArguments input nesting callee) functions
      (.call callee closeParen arguments) (vs ++ [closeParen]) anything := by
    obtain ⟨nesting, rfl⟩ := Nat.exists_eq_succ_of_ne_zero (n := nesting) (by
      rw [show Rank.primary = 9 from rfl] at hnesting
      omega)
    rw [show Rank.primary = 9 from rfl] at hnesting
    rw [callArguments]
    refine (parses_listed (stopsAt 0) (fun _ ↦ stopsAt_of_begins rfl)
      (fun _ ↦ stopsAt_of_begins rfl) (fun e he ts hts hle ↦ ⟨?_, ?_⟩) hvs hroom (by omega)).andThen
      (.expectThen hclose .pure) fun rest _ ↦ ⟨closeParen, rest, rfl, hclose⟩
    · exact (hrecognized e he ts hts hle).parses_expression (by omega) fun _ h ↦ h
    · obtain ⟨t, ws, rfl, ht, _⟩ := (harguments e he).begins hts
      refine ⟨t, ws, rfl, fun hkind ↦ ?_⟩
      rw [hkind] at ht
      cases ht
  rw [suffixes]
  refine (bind_of_ok (Parses.accept hopen (vs ++ [closeParen] ++ rest) errors trivial)).trans ?_
  exact bind_of_ok (hlist rest errors trivial)

theorem stopsAt_equal {equals : Token} {rest : List Token} (h : equals.kind = .equal) :
    stopsAt 1 (equals :: rest) := by
  refine stopsAt_cons ?_
  rw [h]
  intro tightness h
  rw [← Option.mem_some_iff.mp h]
  exact Nat.one_pos

/-- An assignment is read by the parser of its own rank only. -/
theorem of_assignment (he : e.WellFormed) (hts : Spells e.spelling ts)
    (hsize : ts.length < input.size) (hrank : e.rank = 0)
    (hparses : ∀ {nesting functions}, 10 * ts.length ≤ nesting + 1 →
      Parses (assignment input (nesting + 1)) functions e ts (stopsAt 0)) :
    Recognized input e ts := by
  obtain ⟨t, us, rfl, _⟩ := he.begins hts
  refine of_rank he hts hsize (fun {nesting functions} hnesting ↦ ?_) (fun {level _ _} hlevel ↦ ?_)
    fun hcall ↦ ?_
  · rw [hrank] at hnesting ⊢
    rw [List.length_cons] at hnesting
    obtain ⟨nesting, rfl⟩ := Nat.exists_eq_succ_of_ne_zero (n := nesting) (by omega)
    exact hparses (by rw [List.length_cons]; omega)
  · rw [hrank] at hlevel
    cases level <;> cases hlevel
  · rw [hrank] at hcall
    cases hcall

theorem assign {name equals : Token} {value : Expr} {vs : List Token}
    (h : Recognized input value vs) (hname : name.kind = .identifier)
    (hequals : equals.kind = .equal) (hvalue : value.WellFormed) (hvs : Spells value.spelling vs)
    (hsize : (name :: equals :: vs).length < input.size) :
    Recognized input (.assign ⟨name, none⟩ value) (name :: equals :: vs) := by
  refine of_assignment (.assign hname hvalue) (.cons rfl (.cons hequals hvs)) hsize rfl
    fun {nesting functions} hnesting ↦ ?_
  rw [List.length_cons, List.length_cons] at hnesting hsize
  have htarget : Recognized input (.var ⟨name, none⟩) [name] := var hname (by omega)
  rw [assignment]
  refine (htarget.parses (show 1 ≤ Rank.primary by decide) ?_).andThen
    (.acceptThen hequals ((h.parses (Nat.zero_le _) (by omega)).andReturn rfl))
    fun rest _ ↦ stopsAt_equal hequals
  rw [List.length_singleton]
  omega

theorem setProperty {object value : Expr} {dot name equals : Token} {us vs : List Token}
    (hobject : Recognized input object us) (h : Recognized input value vs)
    (hobjectWellFormed : object.WellFormed) (hrank : Rank.call ≤ object.rank)
    (hus : Spells object.spelling us) (hdot : dot.kind = .dot) (hname : name.kind = .identifier)
    (hequals : equals.kind = .equal) (hvalue : value.WellFormed) (hvs : Spells value.spelling vs)
    (hsize : (us ++ dot :: name :: equals :: vs).length < input.size) :
    Recognized input (.setProperty object name value) (us ++ dot :: name :: equals :: vs) := by
  refine of_assignment (.setProperty hobjectWellFormed hrank hname hvalue)
    (hus.append (.cons hdot (.cons rfl (.cons hequals hvs)))) hsize rfl
    fun {nesting functions} hnesting ↦ ?_
  simp only [List.length_append, List.length_cons] at hnesting hsize
  have htarget : Recognized input (.property object name) (us ++ [dot, name]) :=
    hobject.property hobjectWellFormed hrank hus hdot hname (by
      rw [List.length_append, List.length_cons, List.length_singleton]
      omega)
  have hsplit : us ++ dot :: name :: equals :: vs = (us ++ [dot, name]) ++ equals :: vs := by simp
  rw [assignment, hsplit]
  refine (htarget.parses (show 1 ≤ Rank.call by decide) ?_).andThen
    (.acceptThen hequals ((h.parses (Nat.zero_le _) (by omega)).andReturn rfl))
    fun rest _ ↦ stopsAt_equal hequals
  rw [List.length_append, List.length_cons, List.length_singleton]
  omega

end Recognized

/-- Every well-formed expression is read back from its spellings. -/
theorem recognized_of_wellFormed (he : e.WellFormed) (hts : Spells e.spelling ts)
    (hsize : ts.length < input.size) : Recognized input e ts := by
  induction he generalizing ts with
  | literal =>
    obtain ⟨t, us, ht, hus, rfl⟩ := spells_cons.mp hts
    rw [spells_nil.mp hus] at hsize ⊢
    exact .literal ht hsize
  | @group inner hinner ih =>
    obtain ⟨openParen, us, hopen, hus, rfl⟩ := spells_cons.mp hts
    obtain ⟨vs, ws, hvs, hws, rfl⟩ := spells_append.mp hus
    obtain ⟨closeParen, xs, hclose, hxs, rfl⟩ := spells_cons.mp hws
    rw [spells_nil.mp hxs] at hsize ⊢
    refine .group (ih hvs ?_) hinner hvs hopen hclose hsize
    rw [List.length_cons, List.length_append] at hsize
    omega
  | unary hoperator hoperand hrank ih =>
    obtain ⟨operator, us, rfl, hus, rfl⟩ := spells_cons.mp hts
    exact .unary (ih hus (Nat.lt_of_succ_lt hsize)) hoperator hoperand hrank hus hsize
  | binary hlevel hlogical hleft hleftRank hright hrightRank ihLeft ihRight
  | logical hlevel hlogical hleft hleftRank hright hrightRank ihLeft ihRight =>
    obtain ⟨us, vs, hus, hvs, rfl⟩ := spells_append.mp hts
    obtain ⟨operator, ws, rfl, hws, rfl⟩ := spells_cons.mp hvs
    have hlength := hsize
    simp only [List.length_append, List.length_cons] at hlength
    have hjoin := Recognized.join (ihLeft hus (by omega)) (ihRight hws (by omega)) hlevel hleft
      hleftRank hright hrightRank hus hws hsize
    rename_i level
    cases level <;> first | exact hjoin | cases hlogical
  | var hname =>
    obtain ⟨name, us, rfl, hus, rfl⟩ := spells_cons.mp hts
    rw [spells_nil.mp hus] at hsize ⊢
    exact .var hname hsize
  | property hobject hrank hname ih =>
    obtain ⟨us, vs, hus, hvs, rfl⟩ := spells_append.mp hts
    obtain ⟨dot, ws, hdot, hws, rfl⟩ := spells_cons.mp hvs
    obtain ⟨name, xs, rfl, hxs, rfl⟩ := spells_cons.mp hws
    rw [spells_nil.mp hxs] at hsize ⊢
    refine .property (ih hus ?_) hobject hrank hus hdot hname hsize
    rw [List.length_append] at hsize
    omega
  | assign hname hvalue ih =>
    obtain ⟨name, us, rfl, hus, rfl⟩ := spells_cons.mp hts
    obtain ⟨equals, vs, hequals, hvs, rfl⟩ := spells_cons.mp hus
    exact .assign (ih hvs (Nat.lt_of_succ_lt (Nat.lt_of_succ_lt hsize))) hname hequals hvalue hvs
      hsize
  | setProperty hobject hrank hname hvalue ihObject ihValue =>
    obtain ⟨us, vs, hus, hvs, rfl⟩ := spells_append.mp hts
    obtain ⟨dot, ws, hdot, hws, rfl⟩ := spells_cons.mp hvs
    obtain ⟨name, xs, rfl, hxs, rfl⟩ := spells_cons.mp hws
    obtain ⟨equals, ys, hequals, hys, rfl⟩ := spells_cons.mp hxs
    have hlength := hsize
    simp only [List.length_append, List.length_cons] at hlength
    exact .setProperty (ihObject hus (by omega)) (ihValue hys (by omega)) hobject hrank hus hdot
      hname hequals hvalue hys hsize
  | call hcallee hrank hparen hroom harguments ihCallee ihArguments =>
    rw [Expr.spelling, Expr.spellings_eq_map, List.append_assoc] at hts
    obtain ⟨us, vs, hus, hvs, rfl⟩ := spells_append.mp hts
    obtain ⟨openParen, ws, hopen, hws, rfl⟩ := spells_cons.mp hvs
    obtain ⟨xs, ys, hxs, hys, rfl⟩ := spells_append.mp hws
    obtain ⟨closeParen, zs, rfl, hzs, rfl⟩ := spells_cons.mp hys
    rw [spells_nil.mp hzs] at hsize ⊢
    have hlength := hsize
    simp only [List.length_append, List.length_cons] at hlength
    exact .call (ihCallee hus (by omega)) hcallee hrank hus hopen hparen hroom harguments hxs
      (fun e he us hus hle ↦ ihArguments e he hus (by omega)) hsize
  | self hkeyword =>
    obtain ⟨keyword, us, rfl, hus, rfl⟩ := spells_cons.mp hts
    rw [spells_nil.mp hus] at hsize ⊢
    exact .self hkeyword hsize
  | inherited hkeyword hmethod =>
    obtain ⟨keyword, us, rfl, hus, rfl⟩ := spells_cons.mp hts
    obtain ⟨dot, vs, hdot, hvs, rfl⟩ := spells_cons.mp hus
    obtain ⟨method, ws, rfl, hws, rfl⟩ := spells_cons.mp hvs
    rw [spells_nil.mp hws] at hsize ⊢
    exact .inherited hkeyword hdot hmethod hsize

end Parser

end Lox
