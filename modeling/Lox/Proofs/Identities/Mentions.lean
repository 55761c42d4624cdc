import Lox.Proofs.Identities.Keyed
import Lox.Proofs.Scoping.Mentions

/-!
# The identities of what is mentioned

Each mention of a name that is no declaration is made by one reference. If the references of a
program have identities, those of its mentions are all different, and in the order of the walk they
are simply the numbers of a range.

A program has its distances filled in already if there is a table that has the right one for each of
its mentions.
-/

namespace Lox

open Scoping

namespace Mention

/-- The reference that makes a mention. -/
def reference? : Mention → Option Reference
  | read r _ _ | assigned r _ | self r _ | inherited r _ => some r
  | declared _ _ | extended _ _ => none

/-- What the slot holds of the reference that makes a mention. -/
def slot? (mention : Mention) : Option (Option Nat) := mention.reference?.map Reference.distance

/-- A table has for the reference of a mention what is found for the mention. -/
def IsReadBy (φ : Option Nat → Option Nat) (mention : Mention) : Prop :=
  ∀ r ∈ mention.reference?, φ r.distance = mention.finding?.map Finding.distance

/-- What is found for a mention is found for its reference. -/
theorem reference_finding? {mention : Mention} {x : Finding} (h : mention.finding? = some x) :
    mention.reference? = some x.reference := by
  cases mention with
  | declared _ _ | extended _ _ => cases h
  | inherited r scopes =>
    rw [finding?, use?] at h
    by_cases hinherits : scopes.inherits = true
    · rw [if_pos hinherits, Option.bind_some, Option.map_eq_some_iff] at h
      obtain ⟨_, -, rfl⟩ := h
      rfl
    · rw [if_neg hinherits] at h
      cases h
  | read r scopes _ | assigned r scopes | self r scopes =>
    rw [finding?, use?, Option.bind_some, Option.map_eq_some_iff] at h
    obtain ⟨_, -, rfl⟩ := h
    rfl

end Mention

/-! ## Identities in the order of the walk -/

/-- What the slots of a program hold whose references have identities from a number on. -/
def identities (k uses : Nat) : List (Option Nat) := (List.range' k uses).map some

theorem identities_add (k m n : Nat) :
    identities k m ++ identities (k + m) n = identities k (m + n) := by
  rw [identities, identities, ← List.map_append, List.range'_append_1, identities]

section Slots

variable (awaiting : Option String)

mutual

theorem Expr.slots_mentions : ∀ (e : Expr) (ctx : Context) (k : Nat),
    ((e.keyed k).mentions ctx awaiting).filterMap Mention.slot? = identities k e.uses
  | .literal _, _, _ | .var _, _, _ | .self _, _, _ | .inherited _ _, _, _ => rfl
  | .group e, ctx, k | .unary _ e, ctx, k | .property e _, ctx, k => slots_mentions e ctx k
  | .assign target value, ctx, k => by
    rw [keyed, mentions, List.filterMap_append, slots_mentions value, uses, ← identities_add]
    rfl
  | .binary left _ right, ctx, k | .logical left _ right, ctx, k => by
    rw [keyed, mentions, List.filterMap_append, slots_mentions left, slots_mentions right, uses,
      identities_add]
  | .setProperty object _ value, ctx, k => by
    rw [keyed, mentions, List.filterMap_append, slots_mentions value, slots_mentions object, uses,
      identities_add]
  | .call callee _ arguments, ctx, k => by
    rw [keyed, mentions, List.filterMap_append, slots_mentions callee,
      slots_mentionsRow arguments, uses, identities_add]

theorem Expr.slots_mentionsRow : ∀ (es : List Expr) (ctx : Context) (k : Nat),
    (Expr.mentionsRow ctx awaiting (Expr.keyedRow k es)).filterMap Mention.slot?
      = identities k (Expr.usesRow es)
  | [], _, _ => rfl
  | e :: es, ctx, k => by
    rw [keyedRow, mentionsRow, List.filterMap_append, slots_mentions e, slots_mentionsRow es,
      usesRow, identities_add]

end

theorem Expr.slots_mentionsOption (o : Option Expr) (ctx : Context) (k : Nat) :
    (Expr.mentionsOption ctx awaiting (o.map (Expr.keyed k))).filterMap Mention.slot?
      = identities k (Expr.usesOption o) := by
  cases o with
  | none => rfl
  | some e => exact e.slots_mentions awaiting ctx k

end Slots

theorem slots_parameterMentions (parameters : List Token) (ctx : Context) :
    (parameterMentions ctx parameters).filterMap Mention.slot? = [] := by
  induction parameters generalizing ctx with
  | nil => rfl
  | cons p rest ih => exact ih (ctx.declare p.lexeme)

mutual

theorem Stmt.slots_mentions : ∀ (st : Stmt) (ctx : Context) (k : Nat),
    ((st.keyed k).mentions ctx).filterMap Mention.slot? = identities k st.uses
  | .expression e, ctx, k | .print e, ctx, k => e.slots_mentions none ctx k
  | .var name o, ctx, k =>
    Expr.slots_mentionsOption (ctx.awaiting name.lexeme) o (ctx.declare name.lexeme) k
  | .return _ o, ctx, k => Expr.slots_mentionsOption none o ctx k
  | .block body, ctx, k => Stmt.slots_mentionsRow body (.names [] :: ctx) k
  | .branch condition yes no, ctx, k => by
    rw [Stmt.keyed, Stmt.mentions, List.filterMap_append, List.filterMap_append,
      Expr.slots_mentions, Stmt.slots_mentions yes, Stmt.slots_mentionsOption no, Stmt.uses,
      identities_add, Nat.add_assoc k, identities_add]
  | .loop condition body, ctx, k => by
    rw [Stmt.keyed, Stmt.mentions, List.filterMap_append, Expr.slots_mentions,
      Stmt.slots_mentions body, Stmt.uses, identities_add]
  | .forLoop initializer condition increment body, ctx, k => by
    rw [Stmt.keyed, Stmt.mentions, List.filterMap_append, List.filterMap_append,
      List.filterMap_append, Stmt.slots_mentionsOption initializer, Expr.slots_mentionsOption,
      Stmt.slots_mentions body, Expr.slots_mentionsOption, Stmt.uses, identities_add,
      Nat.add_assoc k, identities_add, Nat.add_assoc k, identities_add]
  | .function f, ctx, k => FunDecl.slots_mentions f (ctx.declare (f.keyed k).name.lexeme) k
  | .class name none methods, ctx, k => by
    rw [Stmt.keyed, Stmt.mentions, Stmt.uses, Option.elim_none, Nat.zero_add]
    exact FunDecl.slots_mentionsRow methods _ _
  | .class name (some r) methods, ctx, k => by
    rw [Stmt.keyed, Stmt.mentions, Stmt.uses, ← identities_add]
    exact congrArg (some k :: ·) (FunDecl.slots_mentionsRow methods _ _)

theorem Stmt.slots_mentionsOption : ∀ (o : Option Stmt) (ctx : Context) (k : Nat),
    (Stmt.mentionsOption ctx (Stmt.keyedOption k o)).filterMap Mention.slot?
      = identities k (Stmt.usesOption o)
  | none, _, _ => rfl
  | some st, ctx, k => Stmt.slots_mentions st ctx k

theorem Stmt.slots_mentionsRow : ∀ (body : List Stmt) (ctx : Context) (k : Nat),
    (Stmt.mentionsRow ctx (Stmt.keyedRow k body)).filterMap Mention.slot?
      = identities k (Stmt.usesRow body)
  | [], _, _ => rfl
  | st :: rest, ctx, k => by
    rw [Stmt.keyedRow, Stmt.mentionsRow, List.filterMap_append, Stmt.slots_mentions st,
      Stmt.slots_mentionsRow rest, Stmt.usesRow, identities_add]

theorem FunDecl.slots_mentions : ∀ (f : FunDecl) (ctx : Context) (k : Nat),
    ((f.keyed k).mentions ctx).filterMap Mention.slot? = identities k f.uses
  | .mk _ parameters body, ctx, k => by
    rw [FunDecl.keyed, FunDecl.mentions, List.filterMap_append, slots_parameterMentions,
      Stmt.slots_mentions body]
    rfl

theorem FunDecl.slots_mentionsRow : ∀ (fs : List FunDecl) (ctx : Context) (k : Nat),
    (FunDecl.mentionsRow ctx (FunDecl.keyedRow k fs)).filterMap Mention.slot?
      = identities k (FunDecl.usesRow fs)
  | [], _, _ => rfl
  | f :: rest, ctx, k => by
    rw [FunDecl.keyedRow, FunDecl.mentionsRow, List.filterMap_append, FunDecl.slots_mentions f,
      FunDecl.slots_mentionsRow rest, FunDecl.usesRow, identities_add]

end

/-! ## Distances from a table -/

section Located

variable {φ : Option Nat → Option Nat}

theorem Mention.IsReadBy.recast {mention : Mention} {use : Use} {r : Reference}
    (h : mention.IsReadBy φ) (ctx : Context) (huse : mention.use? = some (use, r, ctx))
    (hreference : mention.reference? = some r) : r.recast (.slots φ) = r.located ctx := by
  have hslot := h r hreference
  rw [finding?_of_use huse, Option.map_map] at hslot
  refine congrArg (Reference.mk r.name) (hslot.trans ?_)
  exact congrFun Option.map_id _

mutual

/-- If a table has for each mention what is found for it, the expression with the distances from the
table is the one with its distances filled in. -/
theorem Expr.recast_eq_located {awaiting : Option String} : ∀ (e : Expr) {ctx : Context},
    (∀ m ∈ e.mentions ctx awaiting, m.IsReadBy φ) → e.recast (.slots φ) = e.located ctx
  | .literal _, _, _ => rfl
  | .group e, _, h | .unary _ e, _, h | .property e _, _, h => by
    simp only [recast, located, recast_eq_located e h, Token.moved_id]
  | .binary left _ right, _, h | .logical left _ right, _, h => by
    rw [mentions, List.forall_mem_append] at h
    simp only [recast, located, recast_eq_located left h.1, recast_eq_located right h.2,
      Token.moved_id]
  | .var target, ctx, h =>
    congrArg Expr.var ((h _ (List.mem_singleton_self _)).recast ctx rfl rfl)
  | .self keyword, ctx, h =>
    congrArg Expr.self ((h _ (List.mem_singleton_self _)).recast ctx rfl rfl)
  | .assign target value, ctx, h => by
    rw [mentions, List.forall_mem_append, List.forall_mem_singleton] at h
    simp only [recast, located, recast_eq_located value h.1,
      h.2.recast ctx rfl rfl]
  | .setProperty object _ value, _, h => by
    rw [mentions, List.forall_mem_append] at h
    simp only [recast, located, recast_eq_located value h.1, recast_eq_located object h.2,
      Token.moved_id]
  | .call callee _ arguments, _, h => by
    rw [mentions, List.forall_mem_append] at h
    simp only [recast, located, recast_eq_located callee h.1, recastRow_eq_located arguments h.2,
      Token.moved_id]
  | .inherited keyword method, ctx, h => by
    have hkeyword := h _ (List.mem_singleton_self _)
    refine congrArg (Expr.inherited · method) ?_
    by_cases hinherits : ctx.inherits = true
    · rw [if_pos hinherits]
      exact hkeyword.recast ctx (if_pos hinherits) rfl
    · have hslot := hkeyword keyword rfl
      rw [Mention.finding?, Mention.use?, if_neg hinherits] at hslot
      rw [if_neg hinherits]
      exact congrArg (Reference.mk keyword.name) hslot

theorem Expr.recastRow_eq_located {awaiting : Option String} : ∀ (es : List Expr) {ctx : Context},
    (∀ m ∈ Expr.mentionsRow ctx awaiting es, m.IsReadBy φ) →
    Expr.recastRow (.slots φ) es = Expr.locatedRow ctx es
  | [], _, _ => rfl
  | e :: es, _, h => by
    rw [mentionsRow, List.forall_mem_append] at h
    simp only [recastRow, locatedRow, recast_eq_located e h.1, recastRow_eq_located es h.2]

end

theorem Expr.recastOption_eq_located {awaiting : Option String} {o : Option Expr} {ctx : Context}
    (h : ∀ m ∈ Expr.mentionsOption ctx awaiting o, m.IsReadBy φ) :
    o.map (Expr.recast (.slots φ)) = o.map (Expr.located ctx) := by
  cases o with
  | none => rfl
  | some e => exact congrArg some (e.recast_eq_located h)

mutual

/-- If a table has for each mention what is found for it, the statement with the distances from the
table is the one with its distances filled in. -/
theorem Stmt.recast_eq_located : ∀ (st : Stmt) {ctx : Context},
    (∀ m ∈ st.mentions ctx, m.IsReadBy φ) → st.recast (.slots φ) = st.located ctx
  | .expression e, _, h | .print e, _, h => by
    simp only [Stmt.recast, Stmt.located, Expr.recast_eq_located e h]
  | .var _ o, _, h => by
    rw [Stmt.mentions, List.forall_mem_cons] at h
    simp only [Stmt.recast, Stmt.located, Expr.recastOption_eq_located h.2, Token.moved_id]
  | .return _ o, _, h => by
    simp only [Stmt.recast, Stmt.located, Expr.recastOption_eq_located h, Token.moved_id]
  | .block body, _, h => by simp only [Stmt.recast, Stmt.located, Stmt.recastRow_eq_located body h]
  | .branch condition yes no, _, h => by
    rw [Stmt.mentions, List.forall_mem_append, List.forall_mem_append] at h
    simp only [Stmt.recast, Stmt.located, Expr.recast_eq_located condition h.1.1,
      Stmt.recast_eq_located yes h.1.2, Stmt.recastOption_eq_located no h.2]
  | .loop condition body, _, h => by
    rw [Stmt.mentions, List.forall_mem_append] at h
    simp only [Stmt.recast, Stmt.located, Expr.recast_eq_located condition h.1,
      Stmt.recast_eq_located body h.2]
  | .forLoop initializer condition increment body, _, h => by
    rw [Stmt.mentions, List.forall_mem_append, List.forall_mem_append,
      List.forall_mem_append] at h
    simp only [Stmt.recast, Stmt.located, Stmt.recastOption_eq_located initializer h.1.1.1,
      Expr.recastOption_eq_located h.1.1.2, Stmt.recast_eq_located body h.1.2,
      Expr.recastOption_eq_located h.2]
  | .function f, _, h => by
    rw [Stmt.mentions, List.forall_mem_cons] at h
    simp only [Stmt.recast, Stmt.located, FunDecl.recast_eq_located f h.2]
  | .class name none methods, _, h => by
    rw [Stmt.mentions, List.forall_mem_append] at h
    simp only [Stmt.recast, Stmt.located, Token.moved_id, Option.map_none,
      FunDecl.recastRow_eq_located methods h.2]
  | .class name (some r) methods, ctx, h => by
    rw [Stmt.mentions, List.forall_mem_append, List.forall_mem_cons, Option.elim_some,
      List.forall_mem_cons, List.forall_mem_singleton] at h
    obtain ⟨⟨-, -, hparent⟩, hmethods⟩ := h
    simp only [Stmt.recast, Stmt.located, Token.moved_id, Option.map_some,
      FunDecl.recastRow_eq_located methods hmethods,
      hparent.recast (ctx.declare name.lexeme) rfl rfl]

theorem Stmt.recastOption_eq_located : ∀ (o : Option Stmt) {ctx : Context},
    (∀ m ∈ Stmt.mentionsOption ctx o, m.IsReadBy φ) →
    Stmt.recastOption (.slots φ) o = Stmt.locatedOption ctx o
  | none, _, _ => rfl
  | some st, _, h => by
    simp only [Stmt.recastOption, Stmt.locatedOption, Stmt.recast_eq_located st h]

theorem Stmt.recastRow_eq_located : ∀ (body : List Stmt) {ctx : Context},
    (∀ m ∈ Stmt.mentionsRow ctx body, m.IsReadBy φ) →
    Stmt.recastRow (.slots φ) body = Stmt.locatedRow ctx body
  | [], _, _ => rfl
  | st :: rest, _, h => by
    rw [Stmt.mentionsRow, List.forall_mem_append] at h
    simp only [Stmt.recastRow, Stmt.locatedRow, Stmt.recast_eq_located st h.1,
      Stmt.recastRow_eq_located rest h.2]

theorem FunDecl.recast_eq_located : ∀ (f : FunDecl) {ctx : Context},
    (∀ m ∈ f.mentions ctx, m.IsReadBy φ) → f.recast (.slots φ) = f.located ctx
  | .mk _ parameters body, _, h => by
    have hparameters : parameters.map (Token.moved id) = parameters := List.map_id parameters
    rw [FunDecl.mentions, List.forall_mem_append] at h
    simp only [FunDecl.recast, FunDecl.located, Stmt.recast_eq_located body h.2, hparameters,
      Token.moved_id]

theorem FunDecl.recastRow_eq_located : ∀ (fs : List FunDecl) {ctx : Context},
    (∀ m ∈ FunDecl.mentionsRow ctx fs, m.IsReadBy φ) →
    FunDecl.recastRow (.slots φ) fs = FunDecl.locatedRow ctx fs
  | [], _, _ => rfl
  | f :: rest, _, h => by
    rw [FunDecl.mentionsRow, List.forall_mem_append] at h
    simp only [FunDecl.recastRow, FunDecl.locatedRow, FunDecl.recast_eq_located f h.1,
      FunDecl.recastRow_eq_located rest h.2]

end

end Located

end Lox
