import Lox.Proofs.Lexing.Spelling
import Lox.Proofs.Outlines.Trees
import Lox.Proofs.Syntax.Drawn

/-!
# Telling trees from their components

What is drawn from the tokens of a text can be told from its components. The value that a token
carries is not among them, but only numbers and strings carry one, and they are not in a tree
themselves. Distances are not among them either, and the parser leaves them open.
-/

namespace Lox

/-! ## Tokens -/

/-- Whether tokens of this kind carry a value. -/
def Kind.isValued : Kind → Bool
  | .number | .string => .true
  | _ => .false

/-- A token that carries no value unless it is of a kind that does. -/
def Token.Bare (t : Token) : Prop := t.kind.isValued = false → t.value = .nil

theorem bare_of_mem_scan {source : String} {t : Token} (h : t ∈ (scan source).tokens) : t.Bare := by
  obtain ⟨kind, lexeme, value, line⟩ := t
  have hlexeme : IsLexeme lexeme.toList kind value := isLexeme_of_mem_scan h
  generalize lexeme.toList = text at hlexeme
  intro hbare
  cases hlexeme with
  | symbol _ | symbolPair _ | reserved _ _ | identifier _ _ => rfl
  | whole _ | fraction _ _ | string _ => cases hbare

theorem Kind.isValued_of_level? {kind : Kind} (h : kind.level?.isSome = .true) :
    kind.isValued = .false := by
  cases kind <;> first | rfl | cases h

/-- A token that carries no value can be told from what is shown of it. -/
theorem Token.eq_of_component {t t' : Token} (ht : t.Bare) (ht' : t'.Bare)
    (hbare : t.kind.isValued = false) (heq : t.component = t'.component) : t = t' := by
  obtain ⟨kind, lexeme, value, line⟩ := t
  obtain ⟨kind', lexeme', value', line'⟩ := t'
  obtain ⟨rfl, rfl, rfl⟩ := Component.token.inj heq
  have hvalue : value = .nil := ht hbare
  have hvalue' : value' = .nil := ht' hbare
  rw [hvalue, hvalue']

theorem Token.eq_of_kind {t t' : Token} {kind : Kind} (ht : t.Bare) (ht' : t'.Bare)
    (hkind : t.kind = kind) (hbare : kind.isValued = false) (heq : t.component = t'.component) :
    t = t' :=
  Token.eq_of_component ht ht' (hkind ▸ hbare) heq

/-! ## Components -/

section

variable {name : String} {a b : Component} {fields fields' : List (String × Component)}

theorem Component.node_inj : node name fields = node name fields' ↔ fields = fields' := by
  rw [node.injEq, and_iff_right rfl]

theorem Component.field_inj :
    (name, a) :: fields = (name, b) :: fields' ↔ a = b ∧ fields = fields' := by
  rw [List.cons.injEq, Prod.mk.injEq, and_iff_right rfl]

end

theorem Component.ofOption_injective {α : Type} {f : α → Component} {o o' : Option α}
    (hleaf : ∀ a, f a ≠ .leaf .nil) (h : ∀ a ∈ o, ∀ b ∈ o', f a = f b → a = b)
    (heq : Component.ofOption f o = Component.ofOption f o') : o = o' := by
  cases o with
  | none =>
    cases o' with
    | none => rfl
    | some b => exact absurd heq.symm (hleaf b)
  | some a =>
    cases o' with
    | none => exact absurd heq (hleaf a)
    | some b => rw [h a rfl b rfl heq]

/-! ## Expressions -/

theorem Expr.component_ne_leaf (e : Expr) : e.component ≠ .leaf .nil := by
  cases e <;> exact nofun

theorem Expr.component_injective {e e' : Expr} (h : e.Drawn Token.Bare) (h' : e'.Drawn Token.Bare)
    (heq : e.component = e'.component) : e = e' := by
  induction h generalizing e' with
  | literal _ _ =>
    cases h' with
    | literal _ _ => simpa [component] using heq
    | _ => simp [component, Reference.component] at heq
  | group _ ih =>
    cases h' with
    | group h' =>
      have hinner := ih h' (by simpa [component] using heq)
      rw [hinner]
    | _ => simp [component, Reference.component] at heq
  | unary hoperator hkind _ ih =>
    cases h' with
    | unary hoperator' hkind' h' =>
      simp only [component, Component.node_inj, Component.field_inj, and_true] at heq
      have hbare : ∀ {kind : Kind}, kind = .bang ∨ kind = .minus → kind.isValued = false := by
        rintro _ (rfl | rfl) <;> rfl
      rw [Token.eq_of_component hoperator hoperator' (hbare hkind) heq.1, ih h' heq.2]
    | _ => simp [component, Reference.component] at heq
  | binary _ hoperator hlevel _ ihLeft ihRight =>
    cases h' with
    | binary hleft' hoperator' _ hright' =>
      simp only [component, Component.node_inj, Component.field_inj, and_true] at heq
      obtain ⟨hleft, hshown, hright⟩ := heq
      rw [ihLeft hleft' hleft, ihRight hright' hright,
        Token.eq_of_component hoperator hoperator' (Kind.isValued_of_level? hlevel) hshown]
    | _ => simp [component, Reference.component] at heq
  | logical _ hoperator hlevel _ ihLeft ihRight =>
    cases h' with
    | logical hleft' hoperator' _ hright' =>
      simp only [component, Component.node_inj, Component.field_inj, and_true] at heq
      obtain ⟨hleft, hshown, hright⟩ := heq
      rw [ihLeft hleft' hleft, ihRight hright' hright,
        Token.eq_of_component hoperator hoperator' (Kind.isValued_of_level? hlevel) hshown]
    | _ => simp [component, Reference.component] at heq
  | var hname hkind =>
    cases h' with
    | var hname' _ =>
      simp only [component, Reference.component, Component.node_inj, Component.field_inj,
        and_true] at heq
      rw [Token.eq_of_kind hname hname' hkind rfl heq]
    | _ => simp [component, Reference.component] at heq
  | property _ hname hkind ih =>
    cases h' with
    | property hobject' hname' _ =>
      simp only [component, Component.node_inj, Component.field_inj, and_true] at heq
      rw [ih hobject' heq.1, Token.eq_of_kind hname hname' hkind rfl heq.2]
    | _ => simp [component, Reference.component] at heq
  | assign hname hkind _ ih =>
    cases h' with
    | assign hname' _ hvalue' =>
      simp only [component, Component.node_inj, Component.field_inj, and_true] at heq
      rw [Token.eq_of_kind hname hname' hkind rfl heq.1, ih hvalue' heq.2.2]
    | _ => simp [component, Reference.component] at heq
  | setProperty _ hname hkind _ ihObject ihValue =>
    cases h' with
    | setProperty hobject' hname' _ hvalue' =>
      simp only [component, Component.node_inj, Component.field_inj, and_true] at heq
      obtain ⟨hshown, ⟨hobject, -⟩, hvalue⟩ := heq
      rw [Token.eq_of_kind hname hname' hkind rfl hshown, ihObject hobject' hobject,
        ihValue hvalue' hvalue]
    | _ => simp [component, Reference.component] at heq
  | call _ hparen hkind harguments ihCallee ihArguments =>
    cases h' with
    | call hcallee' hparen' _ harguments' =>
      simp only [component, Component.node_inj, Component.field_inj, and_true,
        Component.row.injEq, components_eq_map] at heq
      obtain ⟨hcallee, hshown, hrow⟩ := heq
      rw [ihCallee hcallee' hcallee, Token.eq_of_kind hparen hparen' hkind rfl hshown,
        Component.eq_of_map_eq (fun e he e' he' ↦ ihArguments e he (harguments' e' he')) hrow]
    | _ => simp [component, Reference.component] at heq
  | self hkeyword hkind =>
    cases h' with
    | self hkeyword' _ =>
      simp only [component, Component.node_inj, Component.field_inj, and_true] at heq
      rw [Token.eq_of_kind hkeyword hkeyword' hkind rfl heq]
    | _ => simp [component, Reference.component] at heq
  | inherited hkeyword hkind hmethod hkind' =>
    cases h' with
    | inherited hkeyword' _ hmethod' _ =>
      simp only [component, Component.node_inj, Component.field_inj, and_true] at heq
      rw [Token.eq_of_kind hkeyword hkeyword' hkind rfl heq.1,
        Token.eq_of_kind hmethod hmethod' hkind' rfl heq.2]
    | _ => simp [component, Reference.component] at heq

/-! ## Statements -/

theorem Stmt.component_ne_leaf (st : Stmt) : st.component ≠ .leaf .nil := by
  cases st with
  | function f => cases f; exact nofun
  | _ => exact nofun

/-- An expression that may be absent. -/
theorem Expr.option_injective {o o' : Option Expr} (h : ∀ e ∈ o, e.Drawn Token.Bare)
    (h' : ∀ e ∈ o', e.Drawn Token.Bare)
    (heq : Component.ofOption Expr.component o = Component.ofOption Expr.component o') : o = o' :=
  Component.ofOption_injective Expr.component_ne_leaf
    (fun e he e' he' ↦ Expr.component_injective (h e he) (h' e' he')) heq

/-- A superclass as the parser leaves it. -/
theorem Reference.component_injective {r r' : Reference}
    (h : r.name.Bare ∧ r.name.kind = .identifier ∧ r.distance = none)
    (h' : r'.name.Bare ∧ r'.name.kind = .identifier ∧ r'.distance = none)
    (heq : r.component = r'.component) : r = r' := by
  obtain ⟨name, distance⟩ := r
  obtain ⟨name', distance'⟩ := r'
  obtain ⟨hname, hkind, rfl⟩ := h
  obtain ⟨hname', -, rfl⟩ := h'
  simp only [component, Component.node_inj, Component.field_inj, and_true] at heq
  exact congrArg (Reference.mk · none) (Token.eq_of_kind hname hname' hkind rfl heq)

theorem Reference.option_injective {o o' : Option Reference}
    (h : ∀ r ∈ o, r.name.Bare ∧ r.name.kind = .identifier ∧ r.distance = none)
    (h' : ∀ r ∈ o', r.name.Bare ∧ r.name.kind = .identifier ∧ r.distance = none)
    (heq : Component.ofOption Reference.component o = Component.ofOption Reference.component o') :
    o = o' :=
  have hnode : ∀ r : Reference, r.component ≠ .leaf .nil := fun _ ↦ nofun
  Component.ofOption_injective hnode
    (fun r hr r' hr' ↦ Reference.component_injective (h r hr) (h' r' hr')) heq

mutual

theorem Stmt.component_injective {st st' : Stmt} :
    st.Drawn Token.Bare → st'.Drawn Token.Bare → st.component = st'.component → st = st'
  | .expression hvalue, h', heq => by
    cases h' with
    | expression hvalue' =>
      simp only [Stmt.component, Component.node_inj, Component.field_inj, and_true] at heq
      rw [Expr.component_injective hvalue hvalue' heq]
    | function h' => cases h'; simp [Stmt.component, FunDecl.component] at heq
    | _ => simp [Stmt.component] at heq
  | .print hvalue, h', heq => by
    cases h' with
    | print hvalue' =>
      simp only [Stmt.component, Component.node_inj, Component.field_inj, and_true] at heq
      rw [Expr.component_injective hvalue hvalue' heq]
    | function h' => cases h'; simp [Stmt.component, FunDecl.component] at heq
    | _ => simp [Stmt.component] at heq
  | .var hname hkind hinitializer, h', heq => by
    cases h' with
    | var hname' _ hinitializer' =>
      simp only [Stmt.component, Component.node_inj, Component.field_inj, and_true] at heq
      rw [Token.eq_of_kind hname hname' hkind rfl heq.1,
        Expr.option_injective hinitializer hinitializer' heq.2]
    | function h' => cases h'; simp [Stmt.component, FunDecl.component] at heq
    | _ => simp [Stmt.component] at heq
  | .block hbody, h', heq => by
    cases h' with
    | block hbody' =>
      simp only [Stmt.component, Component.node_inj, Component.field_inj, and_true,
        Component.row.injEq, Stmt.components_eq_map] at heq
      rw [Component.eq_of_map_eq (fun st hst st' hst' ↦
        Stmt.component_injective (hbody st hst) (hbody' st' hst')) heq]
    | function h' => cases h'; simp [Stmt.component, FunDecl.component] at heq
    | _ => simp [Stmt.component] at heq
  | .branch hcondition hyes _ hno _, h', heq => by
    cases h' with
    | branch hcondition' hyes' _ hno' _ =>
      simp only [Stmt.component, Component.node_inj, Component.field_inj, and_true,
        Stmt.optionComponent_eq] at heq
      rw [Expr.component_injective hcondition hcondition' heq.1,
        Stmt.component_injective hyes hyes' heq.2.1,
        Component.ofOption_injective Stmt.component_ne_leaf (fun st hst st' hst' ↦
          Stmt.component_injective (hno st hst) (hno' st' hst')) heq.2.2]
    | function h' => cases h'; simp [Stmt.component, FunDecl.component] at heq
    | _ => simp [Stmt.component] at heq
  | .loop hcondition hbody _, h', heq => by
    cases h' with
    | loop hcondition' hbody' _ =>
      simp only [Stmt.component, Component.node_inj, Component.field_inj, and_true] at heq
      rw [Expr.component_injective hcondition hcondition' heq.1,
        Stmt.component_injective hbody hbody' heq.2]
    | function h' => cases h'; simp [Stmt.component, FunDecl.component] at heq
    | _ => simp [Stmt.component] at heq
  | .forLoop hinitializer hcondition hincrement hbody _, h', heq => by
    cases h' with
    | forLoop hinitializer' hcondition' hincrement' hbody' _ =>
      simp only [Stmt.component, Component.node_inj, Component.field_inj, and_true,
        Stmt.optionComponent_eq] at heq
      obtain ⟨hfirst, hsecond, hthird, hlast⟩ := heq
      rw [Component.ofOption_injective Stmt.component_ne_leaf (fun st hst st' hst' ↦
          Stmt.component_injective (hinitializer st hst) (hinitializer' st' hst')) hfirst,
        Expr.option_injective hcondition hcondition' hsecond,
        Expr.option_injective hincrement hincrement' hthird,
        Stmt.component_injective hbody hbody' hlast]
    | function h' => cases h'; simp [Stmt.component, FunDecl.component] at heq
    | _ => simp [Stmt.component] at heq
  | .function hf, h', heq => by
    cases h' with
    | function hf' => rw [FunDecl.component_injective hf hf' heq]
    | _ => cases hf; simp [Stmt.component, FunDecl.component] at heq
  | .return hkeyword hkind hvalue, h', heq => by
    cases h' with
    | «return» hkeyword' _ hvalue' =>
      simp only [Stmt.component, Component.node_inj, Component.field_inj, and_true] at heq
      rw [Token.eq_of_kind hkeyword hkeyword' hkind rfl heq.1,
        Expr.option_injective hvalue hvalue' heq.2]
    | function h' => cases h'; simp [Stmt.component, FunDecl.component] at heq
    | _ => simp [Stmt.component] at heq
  | .class hname hkind hsuperclass hmethods, h', heq => by
    cases h' with
    | «class» hname' _ hsuperclass' hmethods' =>
      simp only [Stmt.component, Component.node_inj, Component.field_inj, and_true,
        Component.row.injEq, FunDecl.components_eq_map] at heq
      rw [Token.eq_of_kind hname hname' hkind rfl heq.1,
        Reference.option_injective hsuperclass hsuperclass' heq.2.1,
        Component.eq_of_map_eq (fun f hf f' hf' ↦
          FunDecl.component_injective (hmethods f hf) (hmethods' f' hf')) heq.2.2]
    | function h' => cases h'; simp [Stmt.component, FunDecl.component] at heq
    | _ => simp [Stmt.component] at heq

theorem FunDecl.component_injective {f f' : FunDecl} :
    f.Drawn Token.Bare → f'.Drawn Token.Bare → f.component = f'.component → f = f'
  | .mk hname hkind hparameters hbody _, .mk hname' _ hparameters' hbody' _, heq => by
    simp only [FunDecl.component, Component.node_inj, Component.field_inj, and_true,
      Component.row.injEq] at heq
    obtain ⟨hshown, hrow, hlast⟩ := heq
    rw [Token.eq_of_kind hname hname' hkind rfl hshown,
      Component.eq_of_map_eq (fun p hp p' hp' ↦ Token.eq_of_kind (hparameters p hp).1
        (hparameters' p' hp').1 (hparameters p hp).2 rfl) hrow,
      Stmt.component_injective hbody hbody' hlast]

end

end Lox
