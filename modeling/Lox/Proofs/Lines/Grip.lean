import Lox.Proofs.Lines.Moved
import Lox.Proofs.Mirror
import Lox.Proofs.Syntax.Progress

/-!
# Parsing a text that goes on

What a parser does is compared with what it does if the tokens are on other lines and others follow
them. As long as there are tokens left, it does the same. At the end of the tokens it may look at
the ones that follow, where it saw the end before. How much of that can happen is the *grip* of a
parser.

A statement ends in a semicolon or a closing brace and looks no further. The one exception is a
conditional, which looks for an `else`; so the grip of a statement depends on whether what follows
begins with one.
-/

namespace Lox.Parser

/-- What follows the tokens of a text, and how the lines of the text itself change. -/
structure Sequel where
  move : Int → Int
  tokens : List Token

/-- The state of a parser if the sequel follows. -/
def Sequel.behind (q : Sequel) (s : State) : State :=
  ⟨s.rest.map (Token.moved q.move) ++ q.tokens, s.functions,
    s.errors.map fun e ↦ (e.1.moved q.move, e.2)⟩

/-- What a parser makes of the end of its tokens. -/
inductive Grip where
  /-- It may look past the end. -/
  | loose
  /-- If it returns, it has not looked past the end. -/
  | steady
  /-- Moreover, it does not return without having taken a token. -/
  | closed

/-- The grip of two parsers in a row. -/
def Grip.andThen : Grip → Grip → Grip
  | loose, closed => closed
  | loose, _ => loose
  | steady, grip => grip
  | closed, loose => loose
  | closed, _ => closed

/-- The grip of a statement. A conditional goes on with an `else` that follows. -/
def Sequel.grip (q : Sequel) : Grip :=
  if q.tokens.head?.any fun t ↦ decide (t.kind = .else) then .loose else .closed

theorem Sequel.grip_eq_closed {q : Sequel} :
    q.grip = .closed ↔ ∀ t ∈ q.tokens.head?, t.kind ≠ .else := by
  unfold Sequel.grip
  cases q.tokens.head? <;> simp

theorem Sequel.grip_eq_loose {q : Sequel} (h : q.grip ≠ .closed) : q.grip = .loose := by
  unfold Sequel.grip at h ⊢
  split
  · rfl
  · rename_i helse
    exact absurd (if_neg helse) h

variable {α α' β β' : Type} (sequel : Sequel)

/-- With the sequel behind the tokens, the second parser does what the first one does without it. -/
def Carries (grip : Grip) (g : α → α') (p : Parse α) (q : Parse α') : Prop :=
  ∀ s, Ends p s
    (fun a s' ↦ (s.rest = [] → grip ≠ .closed ∧ s'.rest = []) ∧
      (grip ≠ .loose ∨ s'.rest ≠ [] → q (sequel.behind s) = .ok (g a) (sequel.behind s')))
    (fun abort s' ↦ (s.rest = [] → s'.rest = []) ∧
      (abort = .fault → s'.rest ≠ [] → q (sequel.behind s) = .error .fault (sequel.behind s')))

variable {sequel} {grip grip' : Grip} {g : α → α'} {k : β → β'} {p : Parse α} {q : Parse α'}
  {input wider : Input} {nesting : Nat}

namespace Carries

theorem loose (h : Carries sequel grip g p q) : Carries sequel .loose g p q := fun s ↦
  Ends.mono (h s)
    (fun _ _ ⟨hend, hcarry⟩ ↦ ⟨fun hs ↦ ⟨Grip.noConfusion, (hend hs).2⟩,
      fun h ↦ hcarry (.inr (h.resolve_left fun hne ↦ hne rfl))⟩)
    fun _ _ h ↦ h

theorem steady (h : Carries sequel .closed g p q) : Carries sequel .steady g p q := fun s ↦
  Ends.mono (h s)
    (fun _ _ ⟨hend, hcarry⟩ ↦ ⟨fun hs ↦ ⟨Grip.noConfusion, (hend hs).2⟩,
      fun _ ↦ hcarry (.inl Grip.noConfusion)⟩)
    fun _ _ h ↦ h

theorem of_closed (h : Carries sequel .closed g p q) : Carries sequel sequel.grip g p q := by
  by_cases hgrip : sequel.grip = .closed
  · rw [hgrip]
    exact h
  · rw [Sequel.grip_eq_loose hgrip]
    exact h.loose

theorem pure {a : α} {a' : α'} (h : g a = a') :
    Carries sequel .steady g (Pure.pure a) (Pure.pure a') := by
  intro s
  rw [← h]
  exact Ends.pure ⟨fun hs ↦ ⟨Grip.noConfusion, hs⟩, fun _ ↦ rfl⟩

theorem bind {f : α → Parse β} {f' : α' → Parse β'} (hp : Carries sequel grip g p q)
    (hf : ∀ a, Carries sequel grip' k (f a) (f' (g a))) :
    Carries sequel (grip.andThen grip') k (p >>= f) (q >>= f') := by
  intro s
  refine Ends.bind (Ends.mono (hp s) (fun a s₁ ⟨hend, hcarry⟩ ↦ ?_) fun abort s₁ ⟨hend, hcarry⟩ ↦
    ⟨hend, fun hfault hs₁ ↦ bind_of_error (hcarry hfault hs₁)⟩)
  refine Ends.mono (hf a s₁) (fun b s₂ ⟨hend', hcarry'⟩ ↦ ⟨fun hs ↦ ?_, fun h ↦ ?_⟩)
    fun abort s₂ ⟨hend', hcarry'⟩ ↦ ⟨fun hs ↦ hend' (hend hs).2, fun hfault hs₂ ↦ ?_⟩
  -- Without tokens neither of the two takes any, so the row is not closed.
  · obtain ⟨hgrip, hs₁⟩ := hend hs
    obtain ⟨hgrip', hs₂⟩ := hend' hs₁
    refine ⟨?_, hs₂⟩
    cases grip <;> cases grip' <;> first | exact Grip.noConfusion | contradiction
  -- The first parser has not looked past the end: its grip rules that out, or there are tokens left
  -- for the second one, or the second one has to take one.
  · have hfirst : grip ≠ .loose ∨ s₁.rest ≠ [] := by
      by_cases hs₁ : s₁.rest = []
      · obtain ⟨hgrip', hs₂⟩ := hend' hs₁
        have hne := h.resolve_right fun hne ↦ hne hs₂
        refine .inl fun hgrip ↦ ?_
        subst hgrip
        cases grip' <;> first | exact hne rfl | exact hgrip' rfl
      · exact .inr hs₁
    have hsecond : grip' ≠ .loose ∨ s₂.rest ≠ [] := by
      refine h.imp_left fun hne hgrip ↦ hne ?_
      subst hgrip
      cases grip <;> rfl
    rw [bind_of_ok (hcarry hfirst), hcarry' hsecond]
  -- What fails with tokens left has not come to their end before.
  · have hs₁ : s₁.rest ≠ [] := fun hs₁ ↦ hs₂ (hend' hs₁)
    rw [bind_of_ok (hcarry (.inr hs₁)), hcarry' hfault hs₂]

section Binds

variable {f : α → Parse β} {f' : α' → Parse β'}

theorem bind_loose (hp : Carries sequel grip g p q)
    (hf : ∀ a, Carries sequel .loose k (f a) (f' (g a))) :
    Carries sequel .loose k (p >>= f) (q >>= f') := by
  have hgrip : grip.andThen .loose = .loose := by cases grip <;> rfl
  exact hgrip ▸ hp.bind hf

/-- Where a parser that looks past the end is followed by one that has to take a token, it has not
looked past the end. -/
theorem bind_closed (hp : Carries sequel grip g p q)
    (hf : ∀ a, Carries sequel .closed k (f a) (f' (g a))) :
    Carries sequel .closed k (p >>= f) (q >>= f') := by
  have hgrip : grip.andThen .closed = .closed := by cases grip <;> rfl
  exact hgrip ▸ hp.bind hf

theorem bind_steady (hp : Carries sequel .steady g p q)
    (hf : ∀ a, Carries sequel .steady k (f a) (f' (g a))) :
    Carries sequel .steady k (p >>= f) (q >>= f') := hp.bind hf

theorem closed_bind (hp : Carries sequel .closed g p q)
    (hf : ∀ a, Carries sequel .steady k (f a) (f' (g a))) :
    Carries sequel .closed k (p >>= f) (q >>= f') := hp.bind hf

/-- The grip of a statement at the end of a row is the grip of the row. -/
theorem bind_last (hp : Carries sequel grip g p q)
    (hf : ∀ a, Carries sequel sequel.grip k (f a) (f' (g a))) :
    Carries sequel sequel.grip k (p >>= f) (q >>= f') := by
  by_cases hgrip : sequel.grip = .closed
  · rw [hgrip] at hf ⊢
    exact hp.bind_closed hf
  · rw [Sequel.grip_eq_loose hgrip] at hf ⊢
    exact hp.bind_loose hf

theorem last_bind (hp : Carries sequel sequel.grip g p q)
    (hf : ∀ a, Carries sequel .steady k (f a) (f' (g a))) :
    Carries sequel sequel.grip k (p >>= f) (q >>= f') := by
  by_cases hgrip : sequel.grip = .closed
  · rw [hgrip] at hp ⊢
    exact hp.closed_bind hf
  · rw [Sequel.grip_eq_loose hgrip] at hp ⊢
    exact hp.bind_loose fun a ↦ (hf a).loose

end Binds

theorem map {f : α → β} {f' : α' → β'} (hp : Carries sequel grip g p q)
    (hf : ∀ a, k (f a) = f' (g a)) : Carries sequel grip k (f <$> p) (f' <$> q) := by
  rw [← bind_pure_comp, ← bind_pure_comp]
  have hpure : ∀ a, Carries sequel .steady k (Pure.pure (f a)) (Pure.pure (f' (g a))) :=
    fun a ↦ pure (hf a)
  have h : Carries sequel (grip.andThen .steady) k (p >>= Pure.pure ∘ f) (q >>= Pure.pure ∘ f') :=
    hp.bind hpure
  cases grip <;> exact h

theorem get {f : State → Parse α} {f' : State → Parse α'}
    (h : ∀ s, Carries sequel grip g (f s) (f' (sequel.behind s))) :
    Carries sequel grip g (MonadState.get >>= f) (MonadState.get >>= f') := fun s ↦ h s s

/-! ## Single tokens -/

theorem tooDeep : Carries sequel grip g Parser.tooDeep q := fun _ ↦
  Ends.throw ⟨id, fun h ↦ Abort.noConfusion h⟩

theorem exhausted : Carries sequel grip g (throw .exhausted) q := fun _ ↦
  Ends.throw ⟨id, fun h ↦ Abort.noConfusion h⟩

/-- A parser that looks at one token. -/
theorem of_next
    (hend : ∀ s : State, s.rest = [] → Ends p s
      (fun a s' ↦ s'.rest = [] ∧ grip ≠ .closed ∧
        (grip ≠ .loose → q (sequel.behind s) = .ok (g a) (sequel.behind s')))
      fun _ s' ↦ s'.rest = [])
    (hnext : ∀ t rest functions errors, q (sequel.behind ⟨t :: rest, functions, errors⟩)
      = carried sequel.behind id g (p ⟨t :: rest, functions, errors⟩)) :
    Carries sequel grip g p q := by
  intro s
  obtain ⟨rest, functions, errors⟩ := s
  cases rest with
  | nil =>
    refine Ends.mono (hend ⟨[], functions, errors⟩ rfl) (fun a s' ⟨hs', hgrip, hcarry⟩ ↦ ?_)
      fun _ s' hs' ↦ ⟨fun _ ↦ hs', fun _ hne ↦ absurd hs' hne⟩
    exact ⟨fun _ ↦ ⟨hgrip, hs'⟩, fun h ↦ hcarry (h.resolve_right fun hne ↦ hne hs')⟩
  | cons t rest =>
    refine Ends.intro (fun a s' hp ↦ ⟨fun h ↦ absurd h (List.cons_ne_nil _ _), fun _ ↦ ?_⟩)
      fun abort s' hp ↦ ⟨fun h ↦ absurd h (List.cons_ne_nil _ _), fun hfault _ ↦ ?_⟩
    · rw [hnext, hp, carried]
    · rw [hnext, hp, hfault, carried, id]

theorem fail {error : SyntaxError} :
    Carries sequel grip g (Parser.fail input error) (Parser.fail wider error) :=
  of_next (fun _ hs ↦ hs) fun _ _ _ _ ↦ rfl

theorem peek : Carries sequel .loose (Token.moved sequel.move) (Parser.peek input)
    (Parser.peek wider) :=
  of_next (fun _ hs ↦ ⟨hs, Grip.noConfusion, fun h ↦ absurd rfl h⟩) fun _ _ _ _ ↦ rfl

theorem advance : Carries sequel .loose id Parser.advance Parser.advance := by
  refine of_next (fun s hs ↦ ⟨?_, Grip.noConfusion, fun h ↦ absurd rfl h⟩) fun _ _ _ _ ↦ rfl
  rw [hs, List.tail_nil]

theorem check {kinds : Kind → Bool} :
    Carries sequel .loose id (Parser.check kinds) (Parser.check kinds) :=
  of_next (fun _ hs ↦ ⟨hs, Grip.noConfusion, fun h ↦ absurd rfl h⟩) fun _ _ _ _ ↦ rfl

theorem acceptIf_cons_of_neg {kinds : Kind → Bool} {t : Token} {rest : List Token} {functions : Nat}
    {errors : List (Token × SyntaxError)} (h : ¬ kinds t.kind = true) :
    Parser.acceptIf kinds ⟨t :: rest, functions, errors⟩
      = .ok none ⟨t :: rest, functions, errors⟩ :=
  if_neg h

theorem acceptIf_next {kinds : Kind → Bool} (t : Token) (rest : List Token) (functions : Nat)
    (errors : List (Token × SyntaxError)) :
    Parser.acceptIf kinds (sequel.behind ⟨t :: rest, functions, errors⟩)
      = carried sequel.behind id (Option.map (Token.moved sequel.move))
        (Parser.acceptIf kinds ⟨t :: rest, functions, errors⟩) := by
  by_cases ht : kinds t.kind = true
  · rw [acceptIf_eq_some ht]
    exact acceptIf_eq_some (t := t.moved sequel.move) ht
  · rw [acceptIf_cons_of_neg ht]
    exact acceptIf_cons_of_neg (t := t.moved sequel.move) ht

theorem acceptIf_end {kinds : Kind → Bool} {s : State} (hs : s.rest = []) :
    Parser.acceptIf kinds s = .ok none s := acceptIf_eq_none fun _ h ↦ by rw [hs] at h; cases h

theorem acceptIf {kinds : Kind → Bool} :
    Carries sequel .loose (Option.map (Token.moved sequel.move))
    (Parser.acceptIf kinds) (Parser.acceptIf kinds) := by
  refine of_next (fun s hs ↦ ?_) acceptIf_next
  rw [Ends, acceptIf_end hs]
  exact ⟨hs, Grip.noConfusion, fun h ↦ absurd rfl h⟩

theorem accept {kind : Kind} : Carries sequel .loose (Option.map (Token.moved sequel.move))
    (Parser.accept kind) (Parser.accept kind) := acceptIf

/-- What does not begin with an `else` makes no difference to a conditional. -/
theorem acceptElse (hgrip : sequel.grip = .closed) :
    Carries sequel .steady (Option.map (Token.moved sequel.move))
      (Parser.accept .else) (Parser.accept .else) := by
  refine of_next (fun s hs ↦ ?_) acceptIf_next
  rw [Ends, Parser.accept, acceptIf_end hs]
  refine ⟨hs, Grip.noConfusion, fun _ ↦ acceptIf_eq_none fun t ht ↦ decide_eq_false ?_⟩
  rw [Sequel.behind, hs] at ht
  exact Sequel.grip_eq_closed.mp hgrip t ht

theorem expect {kind : Kind} {what : String} : Carries sequel .closed (Token.moved sequel.move)
    (Parser.expect input kind what) (Parser.expect wider kind what) := by
  refine of_next (fun s hs ↦ ?_) fun t rest functions errors ↦ ?_
  · rw [Ends, Parser.expect, Parser.accept, bind_of_ok (acceptIf_end hs)]
    exact hs
  · rw [Parser.expect, Parser.expect, Parser.accept]
    by_cases ht : decide (t.kind = kind) = true
    · rw [bind_of_ok (acceptIf_eq_some ht)]
      exact bind_of_ok (acceptIf_eq_some (t := t.moved sequel.move) ht)
    · rw [bind_of_ok (acceptIf_cons_of_neg ht)]
      exact bind_of_ok (acceptIf_cons_of_neg (t := t.moved sequel.move) ht)

theorem report {t : Token} {error : SyntaxError} : Carries sequel .steady id (Parser.report t error)
    (Parser.report (t.moved sequel.move) error) := fun _ ↦
  ⟨fun hs ↦ ⟨Grip.noConfusion, hs⟩, fun _ ↦ rfl⟩

theorem reportIf {c : Prop} [Decidable c] {error : SyntaxError}
    (h : Carries sequel grip g p q) : Carries sequel .loose g (do
      if c then Parser.report (← Parser.peek input) error
      p) (do
      if c then Parser.report (← Parser.peek wider) error
      q) := by
  by_cases hc : c
  · rw [if_pos hc, if_pos hc]
    exact peek.bind_loose fun _ ↦ report.bind_loose fun _ ↦ h.loose
  · rw [if_neg hc, if_neg hc]
    exact h.loose

theorem insideFunction (h : Carries sequel grip g p q) :
    Carries sequel grip g (Parser.insideFunction p) (Parser.insideFunction q) := by
  intro s
  have hinside := h { s with functions := s.functions + 1 }
  -- The sequel does not change the number of functions.
  have hbehind : { sequel.behind s with functions := (sequel.behind s).functions + 1 }
      = sequel.behind { s with functions := s.functions + 1 } := rfl
  rw [Ends, Parser.insideFunction, Parser.insideFunction, hbehind]
  cases hp : p { s with functions := s.functions + 1 } with
  | ok a s' =>
    obtain ⟨hend, hcarry⟩ := hinside.of_ok hp
    refine ⟨hend, fun hgrip ↦ ?_⟩
    rw [hcarry hgrip]
    rfl
  | error abort s' =>
    obtain ⟨hend, hcarry⟩ := hinside.of_error hp
    refine ⟨hend, fun hfault hrest ↦ ?_⟩
    rw [hcarry hfault hrest]
    rfl

end Carries

/-! ## Recovery -/

theorem skipFrom_behind (f : Int → Int) (more : List Token) (previous : Token) (ts : List Token)
    (h : skipFrom previous ts ≠ []) :
    skipFrom (previous.moved f) (ts.map (Token.moved f) ++ more)
      = (skipFrom previous ts).map (Token.moved f) ++ more := by
  induction ts generalizing previous with
  | nil => exact absurd rfl h
  | cons t rest ih =>
    rw [skipFrom] at h ⊢
    rw [List.map_cons, List.cons_append, skipFrom, Token.kind_moved, Token.kind_moved]
    split
    · rfl
    · rename_i hskip
      rw [if_neg hskip] at h
      exact ih t h

theorem resume_behind (f : Int → Int) (more ts : List Token) (h : resume ts ≠ []) :
    resume (ts.map (Token.moved f) ++ more) = (resume ts).map (Token.moved f) ++ more := by
  cases ts with
  | nil => exact absurd rfl h
  | cons t rest => exact skipFrom_behind f more t rest h

theorem Carries.recovering (h : Carries sequel grip g p q) :
    Carries sequel .loose (Option.map g) (Parser.recovering p) (Parser.recovering q) := by
  intro s
  rw [Ends, Parser.recovering]
  cases hp : p s with
  | ok a s' =>
    obtain ⟨hend, hcarry⟩ := (h s).of_ok hp
    refine ⟨fun hs ↦ ⟨Grip.noConfusion, (hend hs).2⟩, fun hgrip ↦ ?_⟩
    rw [Parser.recovering, hcarry (.inr (hgrip.resolve_left fun hne ↦ hne rfl))]
    rfl
  | error abort s' =>
    obtain ⟨hend, hcarry⟩ := (h s).of_error hp
    cases abort with
    | fault =>
      have hsuffix := (resume_suffix_tail s'.rest).trans (List.tail_suffix _)
      refine ⟨fun hs ↦ ⟨Grip.noConfusion, ?_⟩, fun hgrip ↦ ?_⟩
      · rw [hend hs] at hsuffix ⊢
        rfl
      -- A row that is resumed before the end has not failed behind it.
      · have hresume := hgrip.resolve_left fun hne ↦ hne rfl
        have hrest : s'.rest ≠ [] := fun hnil ↦ hresume (by rw [hnil]; rfl)
        rw [Parser.recovering, hcarry rfl hrest]
        exact congrArg (fun ts ↦ EStateM.Result.ok none (State.mk ts _ _))
          (resume_behind sequel.move sequel.tokens s'.rest hresume)
    | tooDeep | exhausted => exact ⟨hend, fun hfault ↦ Abort.noConfusion hfault⟩

/-- A declaration that is not given up has the grip of its parser. -/
theorem Carries.recovering_some (h : Carries sequel .closed g p q) {s s' : State} {a : α}
    (hp : Parser.recovering p s = .ok (some a) s') :
    Parser.recovering q (sequel.behind s) = .ok (some (g a)) (sequel.behind s') := by
  rw [Parser.recovering] at hp
  cases hps : p s with
  | ok b s₁ =>
    rw [hps] at hp
    cases hp
    rw [Parser.recovering, ((h s).of_ok hps).2 (.inl Grip.noConfusion)]
  | error abort s₁ =>
    rw [hps] at hp
    cases abort <;> cases hp

/-! ## Loops -/

namespace Carries

variable {f : Int → Int} {bound bound' : Nat}

theorem chain {operand operand' : Parse Expr} {isOperator : Kind → Bool}
    {join : Expr → Token → Expr → Expr}
    (hoperand : Carries sequel .loose (Expr.moved sequel.move) operand operand')
    (hjoin : ∀ left operator right, (join left operator right).moved sequel.move
      = join (left.moved sequel.move) (operator.moved sequel.move) (right.moved sequel.move)) :
    ∀ bound bound' left, bound ≤ bound' → Carries sequel .loose (Expr.moved sequel.move)
      (Parser.chain operand isOperator join bound left)
      (Parser.chain operand' isOperator join bound' (left.moved sequel.move))
  | 0, _, _, _ => exhausted
  | bound + 1, bound' + 1, left, hle => by
    rw [Parser.chain, Parser.chain]
    refine acceptIf.bind_loose fun operator? ↦ ?_
    cases operator? with
    | none => exact (pure rfl).loose
    | some operator =>
      refine hoperand.bind_loose fun right ↦ ?_
      rw [← hjoin]
      exact chain hoperand hjoin bound bound' _ (Nat.le_of_succ_le_succ hle)

theorem suffixes {arguments arguments' : Expr → Parse Expr}
    (harguments : ∀ e, Carries sequel .loose (Expr.moved sequel.move) (arguments e)
      (arguments' (e.moved sequel.move))) :
    ∀ bound bound' operand, bound ≤ bound' → Carries sequel .loose (Expr.moved sequel.move)
      (Parser.suffixes input arguments bound operand)
      (Parser.suffixes wider arguments' bound' (operand.moved sequel.move))
  | 0, _, _, _ => exhausted
  | bound + 1, bound' + 1, operand, hle => by
    have ih := fun operand ↦ suffixes harguments bound bound' operand (Nat.le_of_succ_le_succ hle)
    rw [Parser.suffixes, Parser.suffixes]
    refine accept.bind_loose fun paren? ↦ ?_
    cases paren? with
    | some _ => exact (harguments operand).bind_loose ih
    | none =>
      refine accept.bind_loose fun dot? ↦ ?_
      cases dot? with
      | none => exact (pure rfl).loose
      | some _ => exact expect.bind_loose fun name ↦ ih (.property operand name)

theorem many {stops : Kind → Bool} {item : Parse α} {item' : Parse α'}
    (hitem : Carries sequel .loose g item item') :
    ∀ bound bound' read, bound ≤ bound' → Carries sequel .loose (List.map g)
      (Parser.many stops item bound read) (Parser.many stops item' bound' (read.map g))
  | 0, _, _, _ => exhausted
  | bound + 1, bound' + 1, read, hle => by
    rw [Parser.many, Parser.many]
    refine check.bind_loose fun more ↦ ?_
    cases more with
    | false => exact (pure List.map_reverse).loose
    | true =>
      exact hitem.bind_loose fun a ↦
        many hitem bound bound' (a :: read) (Nat.le_of_succ_le_succ hle)

theorem commaSeparated {what : String} {item : Parse α} {item' : Parse α'}
    (hitem : Carries sequel .loose g item item') :
    ∀ bound bound' room read, bound ≤ bound' → Carries sequel .loose (List.map g)
      (Parser.commaSeparated input what item bound room read)
      (Parser.commaSeparated wider what item' bound' room (read.map g))
  | 0, _, _, _, _ => exhausted
  | bound + 1, bound' + 1, room, read, hle => by
    rw [Parser.commaSeparated, Parser.commaSeparated]
    refine reportIf (hitem.bind_loose fun a ↦ accept.bind_loose fun comma? ↦ ?_)
    cases comma? with
    | none => exact (pure List.map_reverse).loose
    | some _ =>
      exact commaSeparated hitem bound bound' _ (a :: read) (Nat.le_of_succ_le_succ hle)

theorem listed {what : String} {item : Parse α} {item' : Parse α'} (hsize : input.size ≤ wider.size)
    (hitem : Carries sequel .loose g item item') : Carries sequel .loose (List.map g)
      (Parser.listed input what item) (Parser.listed wider what item') := by
  rw [Parser.listed, Parser.listed]
  refine check.bind_loose fun closes ↦ ?_
  cases closes with
  | true => exact (pure rfl).loose
  | false => exact commaSeparated hitem _ _ _ [] hsize

end Carries

end Lox.Parser
