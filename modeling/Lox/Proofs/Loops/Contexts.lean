import Lox.Proofs.Loops.Padding
import Lox.Proofs.Scoping.Shape

/-!
# Names among additional scopes

Where a program has additional scopes, the resolver finds every name farther out by as many scopes
as there are between the use and the declaration. It looks for `this` and `super` in the same way,
and there is never a scope between the two. Whether a name is new in its scope, and whether it is on
the way, does not depend on the additional scopes, because nothing is declared in those.

So an expression has its distances lifted, and nothing else is said about it.
-/

namespace Lox

/-! ## Contexts with additional scopes -/

/-- The same scopes, with additional ones in which nothing is declared. The frames of the globals
and of the built-in functions are there on both sides. -/
inductive Context.Padded : Padding → Context → Context → Prop
  | outside : Padded [false, false] [] []
  | names {Γ : Padding} {xs : List String} {ctx ctx' : Context} :
      (∀ x ∈ xs, Ordinary x) → Padded Γ ctx ctx' →
      Padded (false :: Γ) (.names xs :: ctx) (.names xs :: ctx')
  | class {Γ : Padding} {inherits : Bool} {ctx ctx' : Context} : Padded Γ ctx ctx' →
      Padded (false :: false :: Γ) (ctx.insideClass inherits) (ctx'.insideClass inherits)
  | extra {Γ : Padding} {ctx ctx' : Context} : Padded Γ ctx ctx' →
      Padded (true :: Γ) ctx (.names [] :: ctx')

namespace Context.Padded

variable {Γ : Padding} {ctx ctx' : Context} {x : String}

theorem distance?_common {layer : Layer} (h : ctx'.distance? x = (ctx.distance? x).map Γ.lift) :
    distance? (layer :: ctx') x = (distance? (layer :: ctx) x).map (Padding.lift (false :: Γ)) := by
  rw [distance?_cons, distance?_cons, h]
  by_cases hbinds : layer.binds x = true
  · rw [if_pos hbinds, if_pos hbinds]
    rfl
  · rw [if_neg hbinds, if_neg hbinds, Option.map_map, Option.map_map]
    rfl

/-- A distance grows by the number of additional scopes. -/
theorem distance?_eq (h : Padded Γ ctx ctx') (x : String) :
    ctx'.distance? x = (ctx.distance? x).map Γ.lift := by
  induction h with
  | outside => rfl
  | names _ _ ih => exact distance?_common ih
  | «class» _ ih => exact distance?_common (distance?_common ih)
  | extra _ ih =>
    rw [distance?_cons, ih, Option.map_map]
    rfl

theorem inherits_eq (h : Padded Γ ctx ctx') : ctx'.inherits = ctx.inherits := by
  induction h with
  | outside => rfl
  | names _ _ ih => exact ih
  | «class» _ _ => rfl
  | extra _ ih => exact ih

/-- There is no scope between that of `this` and that of `super`. -/
theorem lift_super (h : Padded Γ ctx ctx') (hinherits : ctx.inherits = true) :
    ∃ d, ctx.distance? "super" = some (d + 1) ∧ Γ.lift (d + 1) = Γ.lift d + 1 := by
  induction h with
  | outside => cases hinherits
  | names hxs _ ih =>
    obtain ⟨d, hd, hlift⟩ := ih hinherits
    refine ⟨d + 1, ?_, congrArg (· + 1) hlift⟩
    rw [distance?_cons, Layer.not_binds_of_not_ordinary hxs fun h ↦ h.2 rfl, hd]
    rfl
  | @«class» _ inherits _ _ _ _ =>
    obtain rfl : inherits = true := hinherits
    exact ⟨0, rfl, rfl⟩
  | extra _ ih =>
    obtain ⟨d, hd, hlift⟩ := ih hinherits
    exact ⟨d, hd, congrArg (· + 1) hlift⟩

/-! ### Declarations

Nothing is declared where the innermost scope is an additional one. -/

theorem declare (h : Padded Γ ctx ctx') (hopen : Γ.IsOpen) (hx : Ordinary x) :
    Padded Γ (ctx.declare x) (ctx'.declare x) := by
  cases h with
  | outside => exact .outside
  | names hxs h => exact .names (List.forall_mem_cons.mpr ⟨hx, hxs⟩) h
  | «class» h => exact .class h
  | extra => exact absurd rfl hopen

theorem declareAll (h : Padded Γ ctx ctx') (hopen : Γ.IsOpen) {names : List String}
    (hnames : ∀ x ∈ names, Ordinary x) :
    Padded Γ (ctx.declareAll names) (ctx'.declareAll names) := by
  induction names generalizing ctx ctx' with
  | nil => exact h
  | cons x names ih =>
    obtain ⟨hx, hnames⟩ := List.forall_mem_cons.mp hnames
    exact ih (h.declare hopen hx) hnames

theorem admits_iff (h : Padded Γ ctx ctx') (hopen : Γ.IsOpen) (x : String) :
    ctx'.Admits x ↔ ctx.Admits x := by
  cases h with
  | extra => exact absurd rfl hopen
  | _ => exact Iff.rfl

theorem awaiting_eq (h : Padded Γ ctx ctx') (hopen : Γ.IsOpen) (x : String) :
    ctx'.awaiting x = ctx.awaiting x := by
  cases h with
  | extra => exact absurd rfl hopen
  | _ => rfl

theorem block (h : Padded Γ ctx ctx') :
    Padded (false :: Γ) (.names [] :: ctx) (.names [] :: ctx') :=
  .names (List.forall_mem_nil _) h

end Context.Padded

/-! ## Expressions -/

/-- What is wrong with some mentions, in their order. -/
def Mention.complaints (mentions : List Mention) : List (Token × ScopeError) :=
  mentions.filterMap Mention.complaint?

open Mention (complaints)

theorem Mention.complaints_append (front back : List Mention) :
    complaints (front ++ back) = complaints front ++ complaints back := List.filterMap_append

theorem Mention.complaints_cons (mention : Mention) (rest : List Mention) :
    complaints (mention :: rest) = mention.complaint?.toList ++ complaints rest := by
  rw [complaints, List.filterMap_cons]
  cases mention.complaint? <;> rfl

section Expressions

variable {Γ : Padding} {ctx ctx' : Context}

mutual

/-- Complaints about an expression are about the variable that is on the way, wherever it is. -/
theorem Expr.complaints_eq (ctx ctx' : Context) (awaiting : Option String) : ∀ e : Expr,
    complaints (e.mentions ctx awaiting) = complaints (e.mentions ctx' awaiting)
  | .literal _ | .var _ | .self _ | .inherited _ _ => rfl
  | .group inner | .unary _ inner | .property inner _ => Expr.complaints_eq ctx ctx' awaiting inner
  | .binary left _ right | .logical left _ right => by
    rw [mentions, mentions, Mention.complaints_append, Mention.complaints_append,
      Expr.complaints_eq ctx ctx' awaiting left, Expr.complaints_eq ctx ctx' awaiting right]
  | .assign _ value => by
    rw [mentions, mentions, Mention.complaints_append, Mention.complaints_append,
      Expr.complaints_eq ctx ctx' awaiting value]
    rfl
  | .setProperty object _ value => by
    rw [mentions, mentions, Mention.complaints_append, Mention.complaints_append,
      Expr.complaints_eq ctx ctx' awaiting value, Expr.complaints_eq ctx ctx' awaiting object]
  | .call callee _ arguments => by
    rw [mentions, mentions, Mention.complaints_append, Mention.complaints_append,
      Expr.complaints_eq ctx ctx' awaiting callee,
        Expr.complaints_row_eq ctx ctx' awaiting arguments]

theorem Expr.complaints_row_eq (ctx ctx' : Context) (awaiting : Option String) : ∀ es : List Expr,
    complaints (Expr.mentionsRow ctx awaiting es) = complaints (Expr.mentionsRow ctx' awaiting es)
  | [] => rfl
  | e :: es => by
    rw [mentionsRow, mentionsRow, Mention.complaints_append, Mention.complaints_append,
      Expr.complaints_eq ctx ctx' awaiting e, Expr.complaints_row_eq ctx ctx' awaiting es]

end

theorem Expr.complaints_option_eq (ctx ctx' : Context) (awaiting : Option String)
    (e : Option Expr) :
    complaints (Expr.mentionsOption ctx awaiting e)
      = complaints (Expr.mentionsOption ctx' awaiting e) := by
  cases e with
  | none => rfl
  | some e => exact Expr.complaints_eq ctx ctx' awaiting e

theorem Context.Padded.located_eq (h : Padded Γ ctx ctx') (r : Reference) :
    r.located ctx' = (r.located ctx).lifted Γ := by
  rw [Reference.located, h.distance?_eq]
  rfl

theorem Expr.forall₂_locatedRow {R : Expr → Expr → Prop} {es : List Expr}
    (h : ∀ e ∈ es, R (e.located ctx) (e.located ctx')) :
    List.Forall₂ R (Expr.locatedRow ctx es) (Expr.locatedRow ctx' es) := by
  induction es with
  | nil => exact .nil
  | cons e es ih =>
    obtain ⟨he, hes⟩ := List.forall_mem_cons.mp h
    exact .cons he (ih hes)

/-- An expression has its distances lifted. -/
theorem Expr.Shaped.lifts {e : Expr} (he : e.Shaped) (h : Context.Padded Γ ctx ctx') :
    (e.located ctx).Lifts Γ (e.located ctx') := by
  induction he with
  | literal => exact .literal
  | group _ ih => exact .group ih
  | unary _ ih => exact .unary ih
  | binary _ _ ih ih' => exact .binary ih ih'
  | logical _ _ ih ih' => exact .logical ih ih'
  | var _ =>
    rw [located, located, h.located_eq]
    exact .var
  | property _ ih => exact .property ih
  | assign _ _ ih =>
    rw [located, located, h.located_eq]
    exact .assign ih
  | setProperty _ _ ih ih' => exact .setProperty ih ih'
  | call _ _ ih ih' => exact .call ih (Expr.forall₂_locatedRow ih')
  | self _ =>
    rw [located, located, h.located_eq]
    exact .self
  | @inherited r method hsuper =>
    rw [located, located, h.inherits_eq]
    cases hinherits : ctx.inherits with
    | false => exact .inherited fun d hd ↦ by cases hd
    | true =>
      obtain ⟨d, hd, hlift⟩ := h.lift_super hinherits
      rw [if_pos rfl, if_pos rfl, h.located_eq]
      refine .inherited fun d' hd' ↦ ?_
      rw [Reference.located, hsuper, hd] at hd'
      cases hd'
      rw [hlift, Nat.add_sub_cancel, Nat.add_sub_cancel]

theorem Expr.Shaped.lifts_option {e : Option Expr} (he : ∀ e' ∈ e, e'.Shaped)
    (h : Context.Padded Γ ctx ctx') :
    Option.Rel (Expr.Lifts Γ) (e.map (Expr.located ctx)) (e.map (Expr.located ctx')) := by
  cases e with
  | none => exact .none
  | some e => exact .some ((he e rfl).lifts h)

end Expressions

end Lox
