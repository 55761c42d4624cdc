import Lox.Proofs.Outcome
import Lox.Proofs.Syntax.Grammar

/-!
# What parsers take

What a parser takes is stated as a relation between the tokens and what it returns, with one rule
for each way of putting parsers together, and one for each loop.

The parser goes on after a complaint, so each statement is about a part of a run that adds none to
the complaints. Their number never falls; hence a part of a run without complaints is a run without
complaints, and every fault that is recovered from has left one behind.
-/

namespace Lox.Parser

variable {α β : Type} {s : State} {input : Input}

theorem acceptIf_eq_some {p : Kind → Bool} {t : Token} {rest : List Token} {functions : Nat}
    {errors : List (Token × SyntaxError)} (h : p t.kind = true) :
    acceptIf p ⟨t :: rest, functions, errors⟩ = .ok (some t) ⟨rest, functions, errors⟩ := if_pos h

theorem acceptIf_eq_none {p : Kind → Bool} (h : ∀ t ∈ s.rest.head?, p t.kind = false) :
    acceptIf p s = .ok none s := by
  obtain ⟨rest, functions, errors⟩ := s
  cases rest with
  | nil => rfl
  | cons t rest => exact if_neg (by rw [h t rfl]; exact Bool.false_ne_true)

/-- Whether the parser is inside of a function. -/
def State.inside (s : State) : Bool := decide (s.functions ≠ 0)

theorem State.inside_congr {s s' : State} (h : s'.functions = s.functions) :
    s'.inside = s.inside := by
  rw [State.inside, State.inside, h]

/-- A parser that, from a state on, either complains or takes tokens that `R` relates to what it
returns. -/
def Consumes (p : Parse α) (s : State) (R : α → List Token → Prop) : Prop :=
  Ends p s
    (fun a s' ↦ s'.functions = s.functions ∧ s.errors.length ≤ s'.errors.length ∧
      (s'.errors.length = s.errors.length → ∃ ts, s.rest = ts ++ s'.rest ∧ R a ts))
    (fun abort s' ↦ s'.functions = s.functions ∧ s.errors.length ≤ s'.errors.length ∧
      (abort = .fault → s.errors.length < s'.errors.length))

namespace Consumes

theorem mono_of_prefix {p : Parse α} {R S : α → List Token → Prop} (h : Consumes p s R)
    (hRS : ∀ a ts rest, s.rest = ts ++ rest → R a ts → S a ts) : Consumes p s S := by
  refine Ends.mono h (fun a s' ⟨hf, hle, hts⟩ ↦ ⟨hf, hle, fun heq ↦ ?_⟩) fun _ _ h ↦ h
  obtain ⟨ts, hrest, hR⟩ := hts heq
  exact ⟨ts, hrest, hRS a ts s'.rest hrest hR⟩

theorem mono {p : Parse α} {R S : α → List Token → Prop} (h : Consumes p s R)
    (hRS : ∀ a ts, R a ts → S a ts) : Consumes p s S :=
  h.mono_of_prefix fun a ts _ _ ↦ hRS a ts

theorem pure {a : α} {R : α → List Token → Prop} (h : R a []) :
    Consumes (Pure.pure a : Parse α) s R :=
  Ends.pure ⟨rfl, Nat.le_refl _, fun _ ↦ ⟨[], rfl, h⟩⟩

/-- What is known of the tokens that are read first is a hypothesis of what is shown about those
that are read next. Where there is a complaint among the first, nothing is known and nothing needs
to be shown, but the next parser still has to leave the complaints alone. -/
theorem andThen {p : Parse α} {q : α → Parse β} {R : α → List Token → Prop}
    {S : β → List Token → Prop} (hp : Consumes p s R)
    (hq : ∀ a s', p s = .ok a s' → s'.functions = s.functions → ∀ ts,
      Consumes (q a) s' fun b us ↦ R a ts → S b (ts ++ us)) : Consumes (p >>= q) s S := by
  rw [Consumes] at hp
  refine Ends.bind (Ends.intro (fun a s' hps ↦ ?_) fun e s' hps ↦ hp.of_error hps)
  obtain ⟨hf, hle, hts⟩ := hp.of_ok hps
  have hq := hq a s' hps hf
  refine Ends.intro (fun b s'' hqs ↦ ?_) fun abort s'' hqs ↦ ?_
  · obtain ⟨hf', hle', _⟩ := Ends.of_ok (hq []) hqs
    refine ⟨hf'.trans hf, Nat.le_trans hle hle', fun heq ↦ ?_⟩
    obtain ⟨ts, hrest, hR⟩ := hts (by omega)
    obtain ⟨us, hrest', hS⟩ := (Ends.of_ok (hq ts) hqs).2.2 (by omega)
    exact ⟨ts ++ us, by rw [hrest, hrest', List.append_assoc], hS hR⟩
  · obtain ⟨hf', hle', hlt⟩ := Ends.of_error (hq []) hqs
    exact ⟨hf'.trans hf, Nat.le_trans hle hle', fun hfault ↦ Nat.lt_of_le_of_lt hle (hlt hfault)⟩

theorem map {p : Parse α} {g : α → β} {R : α → List Token → Prop} {S : β → List Token → Prop}
    (hp : Consumes p s R) (h : ∀ a ts, R a ts → S (g a) ts) : Consumes (g <$> p) s S := by
  rw [← bind_pure_comp]
  refine hp.andThen fun a s' _ _ ts ↦ .pure fun hR ↦ ?_
  rw [List.append_nil]
  exact h a ts hR

theorem get {f : State → Parse α} {R : α → List Token → Prop} (h : Consumes (f s) s R) :
    Consumes (MonadState.get >>= f) s R := h

/-! ## Single tokens -/

theorem tooDeep {R : α → List Token → Prop} : Consumes (Parser.tooDeep : Parse α) s R :=
  Ends.throw ⟨rfl, Nat.le_refl _, fun h ↦ by cases h⟩

theorem exhausted {R : α → List Token → Prop} : Consumes (throw .exhausted : Parse α) s R :=
  Ends.throw ⟨rfl, Nat.le_refl _, fun h ↦ by cases h⟩

theorem fail {error : SyntaxError} {R : α → List Token → Prop} :
    Consumes (Parser.fail input error : Parse α) s R := by
  refine Ends.intro (fun _ _ h ↦ by cases h) fun abort s' h ↦ ?_
  cases h
  exact ⟨rfl, Nat.le_succ _, fun _ ↦ Nat.lt_succ_self _⟩

/-- A complaint leaves nothing to be shown. -/
theorem report {t : Token} {error : SyntaxError} {q : Parse α} {Q R : α → List Token → Prop}
    (hq : ∀ s', s'.functions = s.functions → Consumes q s' Q) :
    Consumes (Parser.report t error >>= fun _ ↦ q) s R := by
  refine Ends.bind (Ends.intro (fun _ s' h ↦ ?_) fun _ _ h ↦ by cases h)
  cases h
  refine Ends.mono (hq ⟨s.rest, s.functions, (t, error) :: s.errors⟩ rfl)
    (fun a s'' ⟨hf, hle, _⟩ ↦ ?_) fun abort s'' ⟨hf, hle, _⟩ ↦ ?_
  · rw [List.length_cons] at hle
    exact ⟨hf, by omega, fun heq ↦ by omega⟩
  · rw [List.length_cons] at hle
    exact ⟨hf, by omega, fun _ ↦ by omega⟩

theorem acceptIf {p : Kind → Bool} :
    Consumes (Parser.acceptIf p) s fun t? ts ↦ ts = t?.toList ∧ ∀ t ∈ t?, p t.kind = true := by
  obtain ⟨rest, functions, errors⟩ := s
  cases rest with
  | nil => exact ⟨rfl, Nat.le_refl _, fun _ ↦ ⟨[], rfl, rfl, fun _ h ↦ by cases h⟩⟩
  | cons t rest =>
    by_cases h : p t.kind = true
    · rw [Consumes, Ends, acceptIf_eq_some h]
      refine ⟨rfl, Nat.le_refl _, fun _ ↦ ⟨[t], rfl, rfl, fun u hu ↦ ?_⟩⟩
      rw [← Option.mem_some_iff.mp hu]
      exact h
    · rw [Consumes, Ends, acceptIf_eq_none fun u hu ↦ by
        rw [← Option.mem_some_iff.mp hu]; exact Bool.eq_false_iff.mpr h]
      exact ⟨rfl, Nat.le_refl _, fun _ ↦ ⟨[], rfl, rfl, fun _ h ↦ by cases h⟩⟩

theorem accept {kind : Kind} :
    Consumes (Parser.accept kind) s fun t? ts ↦ ts = t?.toList ∧ ∀ t ∈ t?, t.kind = kind :=
  acceptIf.mono fun _ _ ⟨hts, hkind⟩ ↦ ⟨hts, fun t ht ↦ of_decide_eq_true (hkind t ht)⟩

theorem expect {kind : Kind} {what : String} :
    Consumes (Parser.expect input kind what) s fun t ts ↦ ts = [t] ∧ t.kind = kind := by
  refine accept.andThen fun t? s' _ _ ts ↦ ?_
  cases t? with
  | none => exact fail
  | some t =>
    refine pure ?_
    rintro ⟨rfl, hkind⟩
    exact ⟨rfl, hkind t rfl⟩

theorem check {p : Kind → Bool} : Consumes (Parser.check p) s fun _ ts ↦ ts = [] :=
  ⟨rfl, Nat.le_refl _, fun _ ↦ ⟨[], rfl, rfl⟩⟩

theorem peek {f : Token → Parse α} {R : α → List Token → Prop}
    (h : Consumes (f (s.rest.headD input.finish)) s R) : Consumes (Parser.peek input >>= f) s R := h

/-- Taking a token that has been looked at. -/
theorem advance {t : Token} {rest : List Token} {q : Parse α} {R : α → List Token → Prop}
    (hrest : s.rest = t :: rest)
    (hq : ∀ s', s'.functions = s.functions → Consumes q s' fun a ts ↦ R a (t :: ts)) :
    Consumes (Parser.advance >>= fun _ ↦ q) s R := by
  have hadvance : Consumes Parser.advance s fun _ ts ↦ ts = [t] :=
    ⟨rfl, Nat.le_refl _, fun _ ↦ ⟨[t], by rw [hrest]; rfl, rfl⟩⟩
  refine hadvance.andThen fun _ s' _ hs' ts ↦ (hq s' hs').mono ?_
  rintro a us hR rfl
  exact hR

/-! ## Recovery and functions -/

/-- A declaration that was given up has been complained about. -/
theorem recovering {p : Parse α} {R : α → List Token → Prop} (hp : Consumes p s R) :
    Consumes (Parser.recovering p) s fun a? ts ↦ ∃ a, a? = some a ∧ R a ts := by
  rw [Consumes, Ends, Parser.recovering]
  cases h : p s with
  | ok a s' =>
    obtain ⟨hf, hle, hts⟩ := Ends.of_ok hp h
    refine ⟨hf, hle, fun heq ↦ ?_⟩
    obtain ⟨ts, hrest, hR⟩ := hts heq
    exact ⟨ts, hrest, a, rfl, hR⟩
  | error abort s' =>
    obtain ⟨hf, hle, hlt⟩ := Ends.of_error hp h
    cases abort with
    | fault => exact ⟨hf, hle, fun heq ↦ absurd heq (Nat.ne_of_gt (hlt rfl))⟩
    | tooDeep => exact ⟨hf, hle, fun h ↦ by cases h⟩
    | exhausted => exact ⟨hf, hle, fun h ↦ by cases h⟩

theorem insideFunction {p : Parse α} {R : α → List Token → Prop}
    (hp : Consumes p { s with functions := s.functions + 1 } R) :
    Consumes (Parser.insideFunction p) s R := by
  rw [Consumes, Ends, Parser.insideFunction]
  cases h : p { s with functions := s.functions + 1 } with
  | ok a s' =>
    obtain ⟨_, hle, hts⟩ := Ends.of_ok hp h
    exact ⟨rfl, hle, hts⟩
  | error abort s' =>
    obtain ⟨_, hle, hlt⟩ := Ends.of_error hp h
    exact ⟨rfl, hle, hlt⟩

end Consumes

/-! ## Loops -/

/-- A parser that, from a state on, either complains or takes a spelling of a good tree. -/
def Reads (p : Parse α) (s : State) (good : α → Prop) (spelling : α → List Glyph) : Prop :=
  Consumes p s fun a ts ↦ good a ∧ Spells (spelling a) ts

/-- Tokens behind an operand of a rank that make it a greater expression, which is at least of that
rank again. -/
def Extends (rank : Nat) (operand e : Expr) (ts : List Token) : Prop :=
  operand.WellFormed → rank ≤ operand.rank → (e.WellFormed ∧ rank ≤ e.rank) ∧
    ∀ us, Spells operand.spelling us → Spells e.spelling (us ++ ts)

namespace Extends

variable {rank : Nat} {operand middle e : Expr} {ts us : List Token}

theorem refl : Extends rank e e [] :=
  fun he hrank ↦ ⟨⟨he, hrank⟩, fun us hus ↦ by rw [List.append_nil]; exact hus⟩

theorem trans (h : Extends rank operand middle ts) (h' : Extends rank middle e us) :
    Extends rank operand e (ts ++ us) := by
  intro hoperand hrank
  obtain ⟨⟨hmiddle, hrank'⟩, hts⟩ := h hoperand hrank
  obtain ⟨he, hus⟩ := h' hmiddle hrank'
  refine ⟨he, fun ws hws ↦ ?_⟩
  rw [← List.append_assoc]
  exact hus _ (hts ws hws)

theorem join {level : Level} {left right : Expr} {operator : Token}
    (hoperator : level.hasOperator operator.kind = true) (hright : right.WellFormed)
    (hrank : level.rank < right.rank) (hts : Spells right.spelling ts) :
    Extends level.rank left (level.join left operator right) (operator :: ts) := by
  intro hleft hleftRank
  have hlevel := Level.hasOperator_iff.mp hoperator
  refine ⟨⟨Level.wellFormed_join hlevel hleft hleftRank hright hrank,
    Nat.le_of_eq (Level.rank_join hlevel).symm⟩, fun us hus ↦ ?_⟩
  rw [Level.spelling_join]
  exact hus.append (.cons rfl hts)

theorem property {object : Expr} {dot name : Token} (hdot : dot.kind = .dot)
    (hname : name.kind = .identifier) :
    Extends Rank.call object (.property object name) [dot, name] := by
  intro hobject hrank
  refine ⟨⟨.property hobject hrank hname, Nat.le_refl _⟩, fun us hus ↦ ?_⟩
  exact hus.append (.cons hdot (.cons rfl .nil))

theorem call {callee : Expr} {paren close : Token} {arguments : List Expr}
    (hparen : paren.kind = .leftParen) (hclose : close.kind = .rightParen)
    (hroom : arguments.length ≤ maxArguments) (harguments : ∀ e ∈ arguments, e.WellFormed)
    (hts : Spells (Glyph.commaSeparated (arguments.map Expr.spelling)) ts) :
    Extends Rank.call callee (.call callee close arguments) (paren :: ts ++ [close]) := by
  intro hcallee hrank
  refine ⟨⟨.call hcallee hrank hclose hroom harguments, Nat.le_refl _⟩, fun us hus ↦ ?_⟩
  rw [← Expr.spellings_eq_map] at hts
  have hback : Spells (.mark .leftParen :: Glyph.commaSeparated (Expr.spellings arguments)
      ++ [.token close]) (paren :: ts ++ [close]) :=
    Spells.append (.cons hparen hts) (.cons rfl .nil)
  simpa [Expr.spelling] using hus.append hback

end Extends

section Loops

variable {good : α → Prop} {spelling : α → List Glyph} {item : Parse α} {functions : Nat}

/-- The invariant is that what was read so far is a good left operand. -/
theorem consumes_chain {level : Level} {operand : Parse Expr}
    (hoperand : ∀ s : State, s.functions = functions →
      Reads operand s (fun e ↦ e.WellFormed ∧ level.rank < e.rank) Expr.spelling) :
    ∀ (bound : Nat) (left : Expr) (s : State), s.functions = functions →
      Consumes (chain operand level.hasOperator level.join bound left) s (Extends level.rank left)
  | 0, _, _, _ => .exhausted
  | bound + 1, left, s, hs => by
    rw [chain]
    refine Consumes.acceptIf.andThen fun operator? s₁ _ hs₁ ts ↦ ?_
    cases operator? with
    | none =>
      refine .pure ?_
      rintro ⟨rfl, _⟩
      exact .refl
    | some operator =>
      refine Consumes.andThen (hoperand s₁ (hs₁.trans hs)) fun right s₂ _ hs₂ us ↦ ?_
      refine (consumes_chain hoperand bound _ s₂ (hs₂.trans (hs₁.trans hs))).mono ?_
      rintro e vs hchain ⟨⟨hright, hrank⟩, hus⟩ ⟨rfl, hoperator⟩
      exact (Extends.join (hoperator operator rfl) hright hrank hus).trans hchain

/-- The same invariant, for what stands behind the opening parenthesis of a call as well. -/
theorem consumes_suffixes {arguments : Expr → Parse Expr}
    (harguments : ∀ (callee : Expr) (s : State), s.functions = functions →
      Consumes (arguments callee) s fun e ts ↦
        ∀ paren : Token, paren.kind = .leftParen → Extends Rank.call callee e (paren :: ts)) :
    ∀ (bound : Nat) (operand : Expr) (s : State), s.functions = functions →
      Consumes (suffixes input arguments bound operand) s (Extends Rank.call operand)
  | 0, _, _, _ => .exhausted
  | bound + 1, operand, s, hs => by
    rw [suffixes]
    refine Consumes.accept.andThen fun paren? s₁ _ hs₁ ts ↦ ?_
    cases paren? with
    | some paren =>
      refine (harguments operand s₁ (hs₁.trans hs)).andThen fun e s₂ _ hs₂ us ↦ ?_
      refine (consumes_suffixes harguments bound e s₂ (hs₂.trans (hs₁.trans hs))).mono ?_
      rintro e' vs hrest hcall ⟨rfl, hparen⟩
      exact (hcall paren (hparen paren rfl)).trans hrest
    | none =>
      refine Consumes.accept.andThen fun dot? s₂ _ hs₂ us ↦ ?_
      cases dot? with
      | none =>
        refine .pure ?_
        rintro ⟨rfl, _⟩ ⟨rfl, _⟩
        exact .refl
      | some dot =>
        refine Consumes.expect.andThen fun name s₃ _ hs₃ vs ↦ ?_
        refine (consumes_suffixes harguments bound (.property operand name) s₃
          (hs₃.trans (hs₂.trans (hs₁.trans hs)))).mono ?_
        rintro e ws hrest ⟨rfl, hname⟩ ⟨rfl, hdot⟩ ⟨rfl, _⟩
        exact (Extends.property (hdot dot rfl) hname).trans hrest

theorem reads_many (stops : Kind → Bool)
    (hitem : ∀ s : State, s.functions = functions → Reads item s good spelling) :
    ∀ (bound : Nat) (read : List α) (s : State), s.functions = functions →
      Consumes (many stops item bound read) s fun as ts ↦
        ∃ new, as = read.reverse ++ new ∧ (∀ a ∈ new, good a) ∧
          Spells (new.map spelling).flatten ts
  | 0, _, _, _ => .exhausted
  | bound + 1, read, s, hs => by
    rw [many]
    refine Consumes.check.andThen fun more s₁ _ hs₁ ts ↦ ?_
    cases more with
    | false =>
      refine .pure ?_
      rintro rfl
      exact ⟨[], by rw [List.append_nil], List.forall_mem_nil _, .nil⟩
    | true =>
      refine Consumes.andThen (hitem s₁ (hs₁.trans hs)) fun a s₂ _ hs₂ us ↦ ?_
      refine (reads_many stops hitem bound _ s₂ (hs₂.trans (hs₁.trans hs))).mono ?_
      rintro as vs ⟨new, rfl, hnew, hvs⟩ ⟨ha, hus⟩ rfl
      refine ⟨a :: new, by simp, List.forall_mem_cons.mpr ⟨ha, hnew⟩, ?_⟩
      rw [List.map_cons, List.flatten_cons]
      exact hus.append hvs

/-- Where there is no room for another item, that is reported first. -/
theorem Consumes.reportIf {c : Prop} [Decidable c] {error : SyntaxError} {q : Parse β} {s : State}
    {Q R : β → List Token → Prop} (hq : ∀ s', s'.functions = s.functions → Consumes q s' Q)
    (hQR : ¬c → ∀ b ts, Q b ts → R b ts) :
    Consumes (do
      if c then Parser.report (← Parser.peek input) error
      q) s R := by
  by_cases h : c
  · rw [if_pos h]
    exact .peek (.report hq)
  · rw [if_neg h]
    exact (hq s rfl).mono (hQR h)

theorem reads_commaSeparated {what : String}
    (hitem : ∀ s : State, s.functions = functions → Reads item s good spelling) :
    ∀ (bound room : Nat) (read : List α) (s : State), s.functions = functions →
      Consumes (commaSeparated input what item bound room read) s fun as ts ↦
        ∃ new, as = read.reverse ++ new ∧ new ≠ [] ∧ new.length ≤ room ∧ (∀ a ∈ new, good a) ∧
          Spells (Glyph.commaSeparated (new.map spelling)) ts
  | 0, _, _, _, _ => .exhausted
  | bound + 1, room, read, s, hs => by
    rw [commaSeparated]
    refine Consumes.reportIf (fun s' hs' ↦ ?_) (Q := fun as ts ↦ ∃ new, as = read.reverse ++ new ∧
      new ≠ [] ∧ new.length ≤ room - 1 + 1 ∧ (∀ a ∈ new, good a) ∧
        Spells (Glyph.commaSeparated (new.map spelling)) ts) ?_
    rotate_left
    · rintro hroom as ts ⟨new, has, hne, hlength, hnew, hts⟩
      exact ⟨new, has, hne, by omega, hnew, hts⟩
    refine Consumes.andThen (hitem s' (hs'.trans hs)) fun a s₁ _ hs₁ ts ↦ ?_
    refine Consumes.accept.andThen fun comma? s₂ _ hs₂ us ↦ ?_
    cases comma? with
    | none =>
      refine .pure ?_
      rintro ⟨rfl, _⟩ ⟨ha, hts⟩
      refine ⟨[a], by simp, List.cons_ne_nil _ _, Nat.succ_le_succ (Nat.zero_le _),
        List.forall_mem_singleton.mpr ha, ?_⟩
      simpa [Glyph.commaSeparated, List.intercalate] using hts
    | some comma =>
      refine (reads_commaSeparated hitem bound (room - 1) (a :: read) s₂
        (hs₂.trans (hs₁.trans (hs'.trans hs)))).mono ?_
      rintro as vs ⟨new, rfl, hne, hroom, hnew, hvs⟩ ⟨rfl, hcomma⟩ ⟨ha, hts⟩
      refine ⟨a :: new, by simp, List.cons_ne_nil _ _, Nat.succ_le_succ hroom,
        List.forall_mem_cons.mpr ⟨ha, hnew⟩, ?_⟩
      rw [List.map_cons, Glyph.commaSeparated_cons _ (mt List.map_eq_nil_iff.mp hne)]
      exact hts.append (.cons (hcomma comma rfl) hvs)

/-- A row of items in parentheses, up to the closing one. -/
theorem reads_listed {what : String} {s : State}
    (hitem : ∀ s' : State, s'.functions = s.functions → Reads item s' good spelling) :
    Reads (listed input what item) s (fun as ↦ as.length ≤ maxArguments ∧ ∀ a ∈ as, good a)
      fun as ↦ Glyph.commaSeparated (as.map spelling) := by
  refine Consumes.check.andThen fun closes s₁ _ hs₁ ts ↦ ?_
  cases closes with
  | true =>
    refine .pure ?_
    rintro rfl
    exact ⟨⟨Nat.zero_le _, List.forall_mem_nil _⟩, .nil⟩
  | false =>
    refine (reads_commaSeparated hitem _ _ [] s₁ hs₁).mono ?_
    rintro as us ⟨new, rfl, _, hroom, hnew, hus⟩ rfl
    exact ⟨⟨hroom, hnew⟩, hus⟩

end Loops

end Lox.Parser
