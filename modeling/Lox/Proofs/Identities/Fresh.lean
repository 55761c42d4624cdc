import Lox.Proofs.Identities.Engine
import Lox.Proofs.Scoping.Compilation

/-!
# Fresh identities

What is analyzed gets identities that nothing on the machine has and for which nothing is in the
table. So the distances that are noted for a text, be it right or wrong, are no business of the
trees that have been there before, and what is filled in for them stays the same. The text itself
is analyzed as if its distances were filled in.
-/

namespace Lox

/-! ## Machines on which only some identities are -/

/-- A machine on which nothing has run holds nothing of any program. -/
theorem Machine.recast_start (ρ : Recasting) : Machine.start.recast ρ = Machine.start := by
  have hempty : Store.empty.map (Value.recast ρ) = .empty := by simp [Store.map, Store.empty]
  rw [Machine.recast, Machine.start]
  simp only [← Store.push_map, Bindings.map_ofList, hempty]
  rfl

/-- The identities of which `p` does not hold are taken out. -/
abbrev Recasting.only (p : Nat → Bool) : Recasting := .slots (Option.filter p)

/-- All identities that stand on the machine are such that `p` holds of them. -/
def Machine.HoldsOnly (p : Nat → Bool) (M : Machine) : Prop := M.recast (.only p) = M

namespace Machine.HoldsOnly

variable {M : Machine} {p q : Nat → Bool}

theorem of_recast (p : Nat → Bool) (M : Machine) : (M.recast (.only p)).HoldsOnly p := by
  have hfilter : Option.filter p ∘ Option.filter p = Option.filter p := by
    funext slot
    rw [Function.comp_apply, Option.filter_filter]
    simp only [Bool.and_self]
  rw [HoldsOnly, recast_recast]
  exact congrArg (fun φ ↦ M.recast (.slots φ)) hfilter

/-- It does not matter what happens to the identities that are not there. -/
theorem recast_congr {φ ψ : Option Nat → Option Nat} (h : M.HoldsOnly p) (hnone : φ none = ψ none)
    (hsome : ∀ key, p key = true → φ (some key) = ψ (some key)) :
    M.recast (.slots φ) = M.recast (.slots ψ) := by
  have hfilter : φ ∘ Option.filter p = ψ ∘ Option.filter p := by
    funext slot
    cases slot with
    | none => exact hnone
    | some key =>
      rw [Function.comp_apply, Function.comp_apply, Option.filter_some]
      split
      · exact hsome key ‹_›
      · exact hnone
  rw [← h, recast_recast, recast_recast]
  exact congrArg (fun φ ↦ M.recast (.slots φ)) hfilter

theorem mono (h : M.HoldsOnly p) (hpq : ∀ key, p key = true → q key = true) : M.HoldsOnly q := by
  have hsame : M.recast (.only q) = M.recast (.only p) := h.recast_congr rfl fun key hkey ↦ by
    rw [Option.filter_some_pos (hpq key hkey), Option.filter_some_pos hkey]
  exact hsame.trans h

end Machine.HoldsOnly

/-! ## Texts with identities -/

/-- The outcome of a walk without what the slots of the references hold. -/
def Resolved.blank {α : Type} (r : Resolved α) : Resolved α :=
  { r with findings := r.findings.map (.recast .blank) }

namespace Form

variable {α : Type} (F : Form α) (k : Nat) (a : α)

/-- The resolver does the same for a text with identities. -/
theorem blank_resolver_keyed : (F.resolver (F.keyed k a)).blank = (F.resolver a).blank :=
  (F.resolver_recast _ (F.keyed k a)).symm.trans
    ((congrArg F.resolver (F.blank_keyed k a)).trans (F.resolver_recast _ a))

/-- What is found for a text is found for its own references only. -/
theorem slot_ne_of_findings {key : Nat} (h : key < k ∨ k + F.uses a ≤ key)
    {x : Scoping.Finding} (hx : x ∈ (F.resolver (F.keyed k a)).findings) :
    x.reference.distance ≠ some key := by
  -- Everything is found for a tree that does not change when all other identities are taken out.
  let own : Option Nat → Option Nat := Option.filter fun i ↦ k ≤ i ∧ i < k + F.uses a
  have hown : FixesRange own k (F.uses a) :=
    fun i hle hlt ↦ Option.filter_some_pos (decide_eq_true ⟨hle, hlt⟩)
  have hfindings := congrArg Resolved.findings (F.resolver_recast own (F.keyed k a))
  rw [F.recast_keyed hown] at hfindings
  rw [hfindings] at hx
  obtain ⟨y, -, rfl⟩ := List.mem_map.mp hx
  intro heq
  have hkey := of_decide_eq_true (Option.filter_eq_some_iff.mp heq).2
  omega

/-- The resolver fills in nothing but distances. -/
theorem blank_of_resolver {b : α} (h : (F.resolver a).result = some b) :
    F.recast (fun _ ↦ none) b = F.recast (fun _ ↦ none) a := by
  have hkeyed : (F.resolver (F.keyed 0 a)).result = some b :=
    (congrArg Resolved.result (F.blank_resolver_keyed 0 a)).trans h
  have hempty : Locals.EmptyFrom (fun _ ↦ none) 0 := fun _ _ ↦ rfl
  rw [← F.recast_recordAll hempty hkeyed, F.recast_recast]
  exact F.blank_keyed 0 a

end Form

theorem Analysis.findings_parse {α : Type} (parser : List Token → Token → Parsed α)
    (source : String) : (Analysis.parse parser source).findings = [] := by
  rw [Analysis.parse]
  cases (parser (Lox.scan source).tokens (Lox.scan source).finish).result with
  | ok a => rfl
  | error e => cases e <;> rfl

theorem Analysis.findings_resolveClean {α : Type} (resolver : α → Resolved α) (a : Analysis α) :
    (a.resolveClean resolver).findings
      = if a.hasErrors then a.findings
        else a.result.elim a.findings fun parsed ↦ (resolver parsed).findings := by
  rw [resolveClean, resolve]
  split
  · rfl
  · cases a.result with
    | none => rfl
    | some parsed =>
      dsimp only [Option.elim_some]
      cases (resolver parsed).result <;> rfl

namespace Engine

variable {α : Type} {e : Engine} {F : Form α} {source : String}

/-- A text is analyzed as if its distances were filled in. -/
theorem blank_analyze (e : Engine) (F : Form α) (source : String) :
    (e.analyze F source).1.blank (F.recast fun _ ↦ none)
      = (F.compile source).blank (F.recast fun _ ↦ none) := by
  rw [analyze, Form.compile, Analysis.resolveClean, Analysis.resolveClean]
  generalize Analysis.parse F.parser source = parsed
  obtain ⟨scan, result, diagnostics, findings, tooDeep⟩ := parsed
  -- The text ends up unparsed, parsed with errors, too deep for the resolver, or resolved.
  cases result with
  | none => cases h : diagnostics.hasErrors <;> simp [Analysis.hasErrors, Analysis.resolve, h]
  | some a =>
    have hresolver := F.blank_resolver_keyed e.nextKey a
    have hresult := congrArg Resolved.result hresolver
    have herrors := congrArg Resolved.errors hresolver
    have hfindings := congrArg Resolved.findings hresolver
    simp only [Resolved.blank] at hresult herrors hfindings
    cases h : diagnostics.hasErrors with
    | true => simp [Analysis.hasErrors, Analysis.blank, F.blank_keyed, h]
    | false =>
      cases hb : (F.resolver a).result with
      | none =>
        simp [Analysis.hasErrors, Analysis.blank, Analysis.resolve, Analysis.reportNesting,
          F.blank_keyed, h, hb, hresult, herrors, hfindings]
      | some b =>
        simp [Analysis.hasErrors, Analysis.blank, Analysis.resolve, F.blank_keyed, h, hb, hresult,
          herrors, hfindings, F.blank_of_resolver a hb]

theorem hasErrors_analyze (e : Engine) (F : Form α) (source : String) :
    (e.analyze F source).1.hasErrors = (F.compile source).hasErrors := by
  have hblank := congrArg Analysis.hasErrors (e.blank_analyze F source)
  exact hblank

/-- What is noted for a text is noted under identities that it has been given. -/
theorem locals_analyze {key : Nat}
    (h : key < e.nextKey ∨ (e.analyze F source).2.nextKey ≤ key) :
    (e.analyze F source).2.locals key = e.locals key := by
  refine Locals.recordAll_of_ne fun x hx ↦ ?_
  rw [Analysis.findings_resolveClean] at hx
  split at hx
  · simp [Analysis.findings_parse] at hx
  · rw [analyze] at h
    cases hparsed : (Analysis.parse F.parser source).result with
    | none => simp [hparsed, Analysis.findings_parse] at hx
    | some parsed =>
      simp only [hparsed, Option.map_some, Option.elim_some] at h hx
      exact F.slot_ne_of_findings e.nextKey parsed h hx

/-- A text without errors stays as it was parsed, and the table has for it what would have been
filled in. -/
theorem recast_locals_analyze (ht : e.locals.EmptyFrom e.nextKey)
    (hclean : (F.compile source).hasErrors = false) :
    (e.analyze F source).1.result.map (F.recast (e.analyze F source).2.locals.read)
      = (F.compile source).result := by
  have hblank := congrArg Analysis.result (e.blank_analyze F source)
  cases hresult : (F.compile source).result with
  | none =>
    rw [Option.map_eq_none_iff.mp (hblank.trans (congrArg (Option.map _) hresult)),
      Option.map_none]
  | some a =>
    obtain ⟨hparse, parsed, hparsed, hresolved, -⟩ := Analysis.resolveClean_clean hclean hresult
    have hkeyed : (F.resolver (F.keyed e.nextKey parsed)).result = some a :=
      (congrArg Resolved.result (F.blank_resolver_keyed e.nextKey parsed)).trans hresolved
    have htree : (e.analyze F source).1.result = some (F.keyed e.nextKey parsed) := by
      simp only [analyze, hparsed, Option.map_some]
    have hlocals : (e.analyze F source).2.locals
        = e.locals.recordAll (F.resolver (F.keyed e.nextKey parsed)).findings := by
      rw [Analysis.hasErrors] at hparse
      simp [analyze, Analysis.findings_resolveClean, Analysis.hasErrors, hparse, hparsed]
    rw [htree, hlocals, Option.map_some, F.recast_recordAll ht hkeyed]

/-- All identities of a text are new ones. -/
theorem recast_analyze {φ : Option Nat → Option Nat} (hφ : ∀ key, e.nextKey ≤ key →
      key < (e.analyze F source).2.nextKey → φ (some key) = some key) :
    (e.analyze F source).1.result.map (F.recast φ) = (e.analyze F source).1.result := by
  rw [analyze] at hφ ⊢
  cases hparsed : (Analysis.parse F.parser source).result with
  | none => rfl
  | some parsed =>
    simp only [hparsed, Option.elim_some, Option.map_some] at hφ ⊢
    rw [F.recast_keyed hφ]

/-! ## The machine of an engine -/

/-- The identities that stand on the machine have all been given out, and nothing has been noted for
others. -/
structure WellKeyed (e : Engine) : Prop where
  machine : e.session.machine.HoldsOnly fun key ↦ key < e.nextKey
  locals : e.locals.EmptyFrom e.nextKey

theorem wellKeyed_start (host : Host) : (start host).WellKeyed :=
  ⟨Machine.recast_start _, fun _ _ ↦ rfl⟩

theorem nextKey_le_analyze (e : Engine) (F : Form α) (source : String) :
    e.nextKey ≤ (e.analyze F source).2.nextKey := Nat.le_add_right _ _

namespace WellKeyed

variable (h : e.WellKeyed)
include h

theorem analyze (F : Form α) (source : String) : (e.analyze F source).2.WellKeyed where
  machine := h.machine.mono fun _ hkey ↦
    decide_eq_true (Nat.lt_of_lt_of_le (of_decide_eq_true hkey) (e.nextKey_le_analyze F source))
  locals key hkey := (locals_analyze (.inr hkey)).trans
    (h.locals key (Nat.le_trans (e.nextKey_le_analyze F source) hkey))

/-- Two tables that agree on what has been given out fill in the same. -/
theorem recast_congr {t u : Locals} (htu : ∀ key, key < e.nextKey → t key = u key) :
    e.session.recast (.slots t.read) = e.session.recast (.slots u.read) :=
  congrArg (fun M ↦ ({ e.session with machine := M } : Session))
    (h.machine.recast_congr rfl fun key hkey ↦ htu key (of_decide_eq_true hkey))

/-- The distances on the machine are not affected by a text that is analyzed. -/
theorem located_analyze (F : Form α) (source : String) :
    (e.analyze F source).2.located = e.located :=
  h.recast_congr fun _ hkey ↦ locals_analyze (.inl hkey)

end WellKeyed

end Engine

end Lox
