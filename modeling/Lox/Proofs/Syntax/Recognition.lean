import Lox.Proofs.Syntax.Consumption

/-!
# Which tokens a parser stops at

The converse of consumption: on the tokens of a tree a parser returns that tree, takes nothing
beyond it and complains about nothing. Where a parser stops depends on what follows, so each
statement names the rows of tokens that may follow.

A loop that reads a row of operands is stopped and taken up again in the middle of the row, which is
how an induction on a tree that leans to the left meets a loop that runs to the right.
-/

namespace Lox.Parser

variable {α β : Type} {input : Input} {functions : Nat}

/-- On some tokens, and whatever follows them as far as it may follow, a parser returns a tree and
takes just these tokens. -/
def Parses (p : Parse α) (functions : Nat) (a : α) (ts : List Token)
    (follow : List Token → Prop) : Prop :=
  ∀ rest errors, follow rest →
    p ⟨ts ++ rest, functions, errors⟩ = .ok a ⟨rest, functions, errors⟩

/-- Anything may follow. -/
def anything : List Token → Prop := fun _ ↦ True

/-- What follows does not begin with a token of a kind. -/
def avoids (kind : Kind) : List Token → Prop := fun rest ↦ ∀ t ∈ rest.head?, t.kind ≠ kind

namespace Parses

variable {p : Parse α} {q : α → Parse β} {a : α} {b : β} {t : Token} {ts us : List Token}
  {kind : Kind} {follow next : List Token → Prop}

theorem mono (h : Parses p functions a ts follow) (hnext : ∀ rest, next rest → follow rest) :
    Parses p functions a ts next := fun rest errors hrest ↦ h rest errors (hnext rest hrest)

theorem pure : Parses (Pure.pure a : Parse α) functions a [] follow := fun _ _ _ ↦ rfl

theorem andThen (hp : Parses p functions a ts follow) (hq : Parses (q a) functions b us next)
    (h : ∀ rest, next rest → follow (us ++ rest)) :
    Parses (p >>= q) functions b (ts ++ us) next := by
  intro rest errors hrest
  rw [List.append_assoc, bind_of_ok (hp (us ++ rest) errors (h rest hrest))]
  exact hq rest errors hrest

/-- What is left to do takes no token. -/
theorem andReturn (hp : Parses p functions a ts follow) (hq : q a = Pure.pure b) :
    Parses (p >>= q) functions b ts follow := by
  have hpure : Parses (q a) functions b [] follow := by
    rw [hq]
    exact pure
  rw [← List.append_nil ts]
  exact hp.andThen hpure fun _ h ↦ h

theorem map {g : α → β} (hp : Parses p functions a ts follow) :
    Parses (g <$> p) functions (g a) ts follow := by
  rw [← bind_pure_comp]
  exact hp.andReturn rfl

/-! ## Single tokens -/

theorem acceptIf {p : Kind → Bool} (ht : p t.kind = true) :
    Parses (Parser.acceptIf p) functions (some t) [t] anything :=
  fun _ _ _ ↦ acceptIf_eq_some ht

theorem acceptIf_none {p : Kind → Bool} : Parses (Parser.acceptIf p) functions none []
    fun rest ↦ ∀ t ∈ rest.head?, p t.kind = false :=
  fun _ _ h ↦ acceptIf_eq_none h

theorem accept (ht : t.kind = kind) :
    Parses (Parser.accept kind) functions (some t) [t] anything := acceptIf (decide_eq_true ht)

theorem accept_none : Parses (Parser.accept kind) functions none [] (avoids kind) :=
  fun _ _ h ↦ acceptIf_eq_none fun t ht ↦ decide_eq_false (h t ht)

theorem expect {what : String} (ht : t.kind = kind) :
    Parses (Parser.expect input kind what) functions t [t] anything := by
  rw [Parser.expect]
  exact (accept ht).andReturn rfl

/-- A parser that begins with a token of a kind that is expected. -/
theorem expectThen {q : Token → Parse β} {what : String} (ht : t.kind = kind)
    (hq : Parses (q t) functions b us next) :
    Parses (Parser.expect input kind what >>= q) functions b (t :: us) next :=
  (expect ht).andThen hq fun _ _ ↦ trivial

theorem acceptThen {q : Option Token → Parse β} (ht : t.kind = kind)
    (hq : Parses (q (some t)) functions b us next) :
    Parses (Parser.accept kind >>= q) functions b (t :: us) next :=
  (accept ht).andThen hq fun _ _ ↦ trivial

/-- A parser that could begin with a token of a kind, but does not. -/
theorem skipThen {q : Option Token → Parse β} (hq : Parses (q none) functions b us next)
    (h : ∀ rest, next rest → avoids kind (us ++ rest)) :
    Parses (Parser.accept kind >>= q) functions b us next := accept_none.andThen hq h

theorem peek {q : Token → Parse β} (hq : Parses (q t) functions b (t :: us) next) :
    Parses (Parser.peek input >>= q) functions b (t :: us) next := hq

theorem advance {q : Parse β} (hq : Parses q functions b us next) :
    Parses (Parser.advance >>= fun _ ↦ q) functions b (t :: us) next := hq

theorem check {p : Kind → Bool} {q : Bool → Parse β}
    (hq : Parses (q (p t.kind)) functions b (t :: us) next) :
    Parses (Parser.check p >>= q) functions b (t :: us) next := hq

theorem insideFunction (hp : Parses p (functions + 1) a ts follow) :
    Parses (Parser.insideFunction p) functions a ts follow := by
  intro rest errors hrest
  rw [Parser.insideFunction, hp rest errors hrest]

theorem recovering (hp : Parses p functions a ts follow) :
    Parses (Parser.recovering p) functions (some a) ts follow := by
  intro rest errors hrest
  rw [Parser.recovering, hp rest errors hrest]

end Parses

/-! ## Rows of operands -/

/-- An operand and the rounds of a loop behind it amount to an expression on some tokens: the loop
is where it would be had that expression been the operand. No round takes less than a token. -/
def Continues (p : Parse Expr) (loop : Nat → Expr → Parse Expr) (functions : Nat) (e : Expr)
    (ts : List Token) (follow : List Token → Prop) : Prop :=
  ∀ rest errors bound, follow rest → ts.length ≤ bound → ∃ left, bound ≤ left + ts.length ∧
    (p >>= loop bound) ⟨ts ++ rest, functions, errors⟩ = loop left e ⟨rest, functions, errors⟩

namespace Continues

variable {p : Parse Expr} {loop : Nat → Expr → Parse Expr} {e e' : Expr} {ts us : List Token}
  {follow next : List Token → Prop}

theorem of_parses (h : Parses p functions e ts follow) :
    Continues p loop functions e ts follow := by
  intro rest errors bound hrest _
  refine ⟨bound, Nat.le_add_right _ _, ?_⟩
  rw [bind_of_ok (h rest errors hrest)]

theorem step (h : Continues p loop functions e ts follow) (hus : us ≠ [])
    (hround : ∀ rest errors left, next rest →
      loop (left + 1) e ⟨us ++ rest, functions, errors⟩ = loop left e' ⟨rest, functions, errors⟩)
    (hnext : ∀ rest, next rest → follow (us ++ rest)) :
    Continues p loop functions e' (ts ++ us) next := by
  intro rest errors bound hrest hbound
  have hlength := List.length_pos_iff.mpr hus
  rw [List.length_append] at hbound
  obtain ⟨left, hleft, heq⟩ := h (us ++ rest) errors bound (hnext rest hrest) (by omega)
  obtain ⟨left, rfl⟩ := Nat.exists_eq_succ_of_ne_zero (n := left) (by omega)
  refine ⟨left, by rw [List.length_append]; omega, ?_⟩
  rw [List.append_assoc, heq]
  exact hround rest errors left hrest

/-- The loop ends where nothing can be read that belongs to the row. -/
theorem finish {bound : Nat} (h : Continues p loop functions e ts follow)
    (hbound : ts.length < bound)
    (hend : ∀ left, Parses (loop (left + 1) e) functions e [] next)
    (hnext : ∀ rest, next rest → follow rest) :
    Parses (p >>= loop bound) functions e ts next := by
  intro rest errors hrest
  obtain ⟨left, hleft, heq⟩ := h rest errors bound (hnext rest hrest) (Nat.le_of_lt hbound)
  obtain ⟨left, rfl⟩ := Nat.exists_eq_succ_of_ne_zero (n := left) (by omega)
  rw [heq]
  exact hend left rest errors hrest

end Continues

/-! ## Rows of items -/

/-- What follows begins with a token of a kind. -/
def begins (kind : Kind) : List Token → Prop := fun rest ↦ ∃ t us, rest = t :: us ∧ t.kind = kind

section Rows

variable {item : Parse β} {spelling : α → List Glyph} {g : α → β} (follow : List Token → Prop)
  {next : List Token → Prop}

/-- Every item begins with a token that may follow an item, and that does not stop the row. -/
theorem parses_many {stops : Kind → Bool} (hnext : ∀ rest, next rest → follow rest)
    (hstop : ∀ rest, next rest → ∀ t ∈ rest.head?, stops t.kind = true) :
    ∀ (read : List β) {as : List α} {ts : List Token} {bound : Nat},
      (∀ a ∈ as, ∀ us, Spells (spelling a) us → us.length ≤ ts.length →
        Parses item functions (g a) us follow ∧
          ∃ t vs, us = t :: vs ∧ stops t.kind = false ∧ ∀ rest, follow (t :: rest)) →
      Spells (as.map spelling).flatten ts → ts.length < bound →
      Parses (many stops item bound read) functions (read.reverse ++ as.map g) ts next
  | _, _, _, 0, _, _, hbound => by omega
  | read, [], ts, bound + 1, _, hts, _ => by
    rw [spells_nil.mp hts, List.map_nil, List.append_nil]
    intro rest errors hrest
    have hcheck : check (fun k ↦ !stops k) ⟨rest, functions, errors⟩
        = .ok false ⟨rest, functions, errors⟩ := by
      rw [check]
      cases rest with
      | nil => rfl
      | cons t rest =>
        simp only [List.head?_cons, Option.any_some, hstop _ hrest t rfl, Bool.not_true]
    rw [many, List.nil_append, bind_of_ok hcheck]
    rfl
  | read, a :: as, ts, bound + 1, hitem, hts, hbound => by
    rw [List.map_cons, List.flatten_cons] at hts
    obtain ⟨us, vs, hus, hvs, rfl⟩ := spells_append.mp hts
    rw [List.length_append] at hitem hbound
    obtain ⟨hparses, t, ws, rfl, hstops, _⟩ := hitem a List.mem_cons_self us hus (by omega)
    rw [List.length_cons] at hbound
    rw [many]
    refine .check ?_
    rw [hstops, Bool.not_false, if_pos rfl]
    have hmany : Parses (many stops item bound (g a :: read)) functions
        ((g a :: read).reverse ++ as.map g) vs next :=
      parses_many hnext hstop _
        (fun b hb xs hxs hle ↦ hitem b (List.mem_cons_of_mem _ hb) xs hxs (by omega)) hvs (by omega)
    rw [List.reverse_cons, List.append_assoc] at hmany
    refine hparses.andThen hmany fun rest hrest ↦ ?_
    cases as with
    | nil =>
      rw [spells_nil.mp hvs]
      exact hnext rest hrest
    | cons b as =>
      rw [List.map_cons, List.flatten_cons] at hvs
      obtain ⟨xs, ys, hxs, _, rfl⟩ := spells_append.mp hvs
      obtain ⟨_, u, zs, rfl, _, hu⟩ := hitem b (List.mem_cons_of_mem _ List.mem_cons_self) xs hxs
        (by rw [List.length_append]; omega)
      exact hu _

theorem parses_commaSeparated {what : String} (hcomma : ∀ rest, begins .comma rest → follow rest)
    (hnext : ∀ rest, next rest → follow rest ∧ avoids .comma rest) :
    ∀ (read : List β) {as : List α} {ts : List Token} {bound room : Nat}, as ≠ [] →
      (∀ a ∈ as, ∀ us, Spells (spelling a) us → us.length ≤ ts.length →
        Parses item functions (g a) us follow) →
      Spells (Glyph.commaSeparated (as.map spelling)) ts → as.length ≤ room → as.length < bound →
      Parses (commaSeparated input what item bound room read) functions (read.reverse ++ as.map g)
        ts next
  | _, _, _, 0, _, _, _, _, _, hbound => by omega
  | _, [], _, _, _, hne, _, _, _, _ => absurd rfl hne
  | read, a :: as, ts, bound + 1, room, _, hitem, hts, hroom, hbound => by
    rw [List.length_cons] at hroom hbound
    rw [commaSeparated, if_neg (by omega)]
    cases as with
    | nil =>
      have hus : Spells (spelling a) ts := by
        simpa [Glyph.commaSeparated, List.intercalate] using hts
      have hitem := hitem a List.mem_cons_self ts hus (Nat.le_refl _)
      rw [List.map_cons, List.map_nil, ← List.reverse_cons, ← List.append_nil ts]
      refine hitem.andThen (.skipThen .pure fun rest hrest ↦ ?_) fun rest hrest ↦ ?_
      · exact (hnext rest hrest).2
      · exact (hnext rest hrest).1
    | cons b as =>
      rw [List.map_cons, Glyph.commaSeparated_cons _ (by simp)] at hts
      obtain ⟨us, vs, hus, hvs, rfl⟩ := spells_append.mp hts
      obtain ⟨comma, ws, hkind, hws, rfl⟩ := spells_cons.mp hvs
      rw [List.length_append, List.length_cons] at hitem
      have hrest : Parses (commaSeparated input what item bound (room - 1) (g a :: read)) functions
          ((g a :: read).reverse ++ (b :: as).map g) ws next :=
        parses_commaSeparated hcomma hnext _ (List.cons_ne_nil _ _)
          (fun c hc xs hxs hle ↦ hitem c (List.mem_cons_of_mem _ hc) xs hxs (by omega)) hws
          (by omega) (by omega)
      rw [List.reverse_cons, List.append_assoc] at hrest
      refine (hitem a List.mem_cons_self us hus (by omega)).andThen (.acceptThen hkind hrest)
        fun rest _ ↦ ?_
      exact hcomma _ ⟨comma, ws ++ rest, rfl, hkind⟩

/-- There are no more items than tokens. -/
theorem length_le_of_commaSeparated : ∀ {as : List α} {ts : List Token},
    (∀ a ∈ as, ∀ us, Spells (spelling a) us → us.length ≤ ts.length → us ≠ []) →
    Spells (Glyph.commaSeparated (as.map spelling)) ts → as.length ≤ ts.length
  | [], _, _, _ => Nat.zero_le _
  | [a], ts, hne, hts => by
    have hus : Spells (spelling a) ts := by
      simpa [Glyph.commaSeparated, List.intercalate] using hts
    exact List.length_pos_iff.mpr (hne a List.mem_cons_self ts hus (Nat.le_refl _))
  | a :: b :: as, ts, hne, hts => by
    rw [List.map_cons, Glyph.commaSeparated_cons _ (by simp)] at hts
    obtain ⟨us, vs, _, hvs, rfl⟩ := spells_append.mp hts
    obtain ⟨comma, ws, _, hws, rfl⟩ := spells_cons.mp hvs
    simp only [List.length_append, List.length_cons] at hne ⊢
    have hle : (b :: as).length ≤ ws.length := length_le_of_commaSeparated
      (fun c hc xs hxs hle ↦ hne c (List.mem_cons_of_mem _ hc) xs hxs (by omega)) hws
    rw [List.length_cons] at hle
    omega

/-- A row of items in parentheses, up to the closing one. -/
theorem parses_listed {what : String} {item : Parse α} {as : List α} {ts : List Token}
    (hcomma : ∀ rest, begins .comma rest → follow rest)
    (hclose : ∀ rest, begins .rightParen rest → follow rest)
    (hitem : ∀ a ∈ as, ∀ us, Spells (spelling a) us → us.length ≤ ts.length →
      Parses item functions a us follow ∧ ∃ t vs, us = t :: vs ∧ t.kind ≠ .rightParen)
    (hts : Spells (Glyph.commaSeparated (as.map spelling)) ts) (hroom : as.length ≤ maxArguments)
    (hsize : ts.length < input.size) :
    Parses (listed input what item) functions as ts (begins .rightParen) := by
  have hcount : as.length ≤ ts.length := by
    refine length_le_of_commaSeparated (fun a ha us hus hle ↦ ?_) hts
    obtain ⟨_, t, vs, rfl, _⟩ := hitem a ha us hus hle
    exact List.cons_ne_nil _ _
  rw [listed]
  cases as with
  | nil =>
    rw [spells_nil.mp (show Spells [] ts from hts)]
    rintro _ errors ⟨t, us, rfl, ht⟩
    have hcheck : check (fun k ↦ decide (k = .rightParen)) ⟨t :: us, functions, errors⟩
        = .ok true ⟨t :: us, functions, errors⟩ := by
      rw [check]
      simp only [List.head?_cons, Option.any_some, ht, decide_true]
    rw [List.nil_append, bind_of_ok hcheck]
    rfl
  | cons a as =>
    have hrow : Parses (commaSeparated input what item input.size maxArguments []) functions
        (a :: as) ts (begins .rightParen) := by
      rw [← List.map_id (a :: as)]
      refine parses_commaSeparated follow hcomma (fun rest hrest ↦ ⟨hclose rest hrest, ?_⟩) []
        (List.cons_ne_nil a as) (fun b hb us hus hle ↦ (hitem b hb us hus hle).1) hts hroom
        (Nat.lt_of_le_of_lt hcount hsize)
      · obtain ⟨t, us, rfl, ht⟩ := hrest
        intro u hu hkind
        rw [← Option.mem_some_iff.mp hu, ht] at hkind
        cases hkind
    -- The first item tells the row from an empty one.
    obtain ⟨us, vs, hus, rfl⟩ : ∃ us vs, Spells (spelling a) us ∧ ts = us ++ vs := by
      cases as with
      | nil =>
        refine ⟨ts, [], ?_, (List.append_nil ts).symm⟩
        simpa [Glyph.commaSeparated, List.intercalate] using hts
      | cons b as =>
        rw [List.map_cons, Glyph.commaSeparated_cons _ (by simp)] at hts
        obtain ⟨us, vs, hus, _, rfl⟩ := spells_append.mp hts
        exact ⟨us, vs, hus, rfl⟩
    obtain ⟨_, t, ws, rfl, ht⟩ := hitem a List.mem_cons_self us hus (by simp)
    refine .check ?_
    rw [decide_eq_false ht, if_neg Bool.false_ne_true]
    exact hrow

end Rows

end Lox.Parser
