import Mathlib.Data.List.Basic
import Lox.Syntax.Outline

/-!
# What an outline shows

An outline takes no notice of what kind of tree it is made from. It meets leaves, tokens, rows and
nodes with named fields, each of them one level below what holds it, and puts a mark in place of
what lies too deep. So a tree is first taken for the components that it has, and an outline is a way
to show components.

What an outline shows down to some depth can be cut down to any smaller one, it has a mark if and
only if there is a component beyond the depth, and without a mark it shows all the components there
are.
-/

namespace Lox

/-- What an outline distinguishes in a tree. An absent part is the leaf that is nothing. -/
inductive Component where
  | leaf (value : Literal)
  | token (kind : Kind) (lexeme : String) (line : Int)
  | row (items : List Component)
  | node (name : String) (fields : List (String × Component))

namespace Component

/-- Shows a component with the given number of levels left. -/
def outline : Nat → Component → Document
  | 0, _ => .truncated
  | _ + 1, leaf value => value.document
  | _ + 1, token kind lexeme line => Token.document ⟨kind, lexeme, .nil, line⟩
  | levels + 1, row items => .list (items.map (outline levels))
  | levels + 1, node name fields => Outline.node name (fields.map fun f ↦ (f.1, outline levels f.2))

/-- A component is a part of another one, so many levels below it. -/
inductive LiesAt (part : Component) : Nat → Component → Prop
  | root : LiesAt part 0 part
  | item {depth : Nat} {items : List Component} {c : Component} :
      c ∈ items → LiesAt part depth c → LiesAt part (depth + 1) (row items)
  | field {depth : Nat} {name : String} {fields : List (String × Component)}
      {f : String × Component} :
      f ∈ fields → LiesAt part depth f.2 → LiesAt part (depth + 1) (node name fields)

end Component

namespace Document

/-- Replaces what lies deeper than the given number of levels by the mark. Rows and nodes have
parts; everything else is whole, and so is the rendering of a token. -/
def cut : Nat → Document → Document
  | 0, _ => truncated
  | levels + 1, list items => list (items.map (cut levels))
  | levels + 1, record (("_type", name) :: fields) =>
    record (("_type", name) :: fields.map fun f ↦ (f.1, cut levels f.2))
  | _ + 1, d => d

/-- A document is a part of another one. -/
inductive OccursIn (part : Document) : Document → Prop
  | whole : OccursIn part part
  | item {items : List Document} {d : Document} :
      d ∈ items → OccursIn part d → OccursIn part (list items)
  | field {fields : List (String × Document)} {f : String × Document} :
      f ∈ fields → OccursIn part f.2 → OccursIn part (record fields)

end Document

/-- A kind can be told from its name. -/
theorem Kind.name_injective {kind kind' : Kind} (h : kind.name = kind'.name) : kind = kind' := by
  have hread : ∀ k : Kind, Kind.ofName? k.name = some k := by
    intro k
    cases k <;> decide
  exact Option.some.inj ((hread kind).symm.trans (h ▸ hread kind'))

namespace Component

/-! ## Cutting -/

/-- A leaf and a token are never cut into. -/
theorem cut_document (levels : Nat) (value : Literal) :
    value.document.cut (levels + 1) = value.document := by
  cases value <;> rfl

/-- What is shown down to some depth and cut down to a smaller one is what is shown down to that. -/
theorem cut_outline {levels levels' : Nat} (hle : levels ≤ levels') (c : Component) :
    (c.outline levels').cut levels = c.outline levels := by
  induction levels generalizing levels' c with
  | zero => rw [Document.cut, outline]
  | succ levels ih =>
    obtain ⟨levels', rfl⟩ := Nat.exists_eq_add_of_le' (Nat.le_trans (Nat.le_add_left 1 levels) hle)
    have hle' : levels ≤ levels' := Nat.le_of_succ_le_succ hle
    cases c with
    | leaf value => exact cut_document levels value
    | token kind lexeme line => rfl
    | row items =>
      rw [outline, Document.cut, outline, List.map_map]
      exact congrArg Document.list (List.map_congr_left fun c _ ↦ ih hle' c)
    | node name fields =>
      rw [outline, Outline.node, Document.cut, outline, Outline.node, List.map_map]
      exact congrArg (fun fields ↦ Document.record (("_type", .text name) :: fields))
        (List.map_congr_left fun f _ ↦ congrArg (Prod.mk f.1) (ih hle' f.2))

/-! ## Marks -/

theorem not_truncated_in_leaf (value : Literal) : ¬ Document.truncated.OccursIn value.document := by
  cases value <;> nofun

theorem not_truncated_in_token (t : Token) : ¬ Document.truncated.OccursIn t.document := by
  intro h
  rw [Token.document] at h
  generalize hd : Document.record _ = d at h
  cases h with
  | whole => simp [Document.truncated] at hd
  | item _ _ => cases hd
  | @field fields f hf h =>
    cases hd
    simp only [List.mem_cons, List.not_mem_nil, or_false] at hf
    rcases hf with rfl | rfl | rfl <;> cases h

/-- What is shown of a row has a mark if and only if that of an item has one. -/
theorem truncated_in_row {levels : Nat} {items : List Component} :
    Document.truncated.OccursIn ((row items).outline (levels + 1)) ↔
      ∃ c ∈ items, Document.truncated.OccursIn (c.outline levels) := by
  rw [outline]
  constructor
  · intro h
    cases h with
    | item hd h =>
      obtain ⟨c, hc, rfl⟩ := List.mem_map.mp hd
      exact ⟨c, hc, h⟩
  · rintro ⟨c, hc, h⟩
    exact .item (List.mem_map_of_mem hc) h

theorem truncated_in_node {levels : Nat} {name : String} {fields : List (String × Component)} :
    Document.truncated.OccursIn ((node name fields).outline (levels + 1)) ↔
      ∃ f ∈ fields, Document.truncated.OccursIn (f.2.outline levels) := by
  rw [outline, Outline.node]
  constructor
  · intro h
    generalize hd : Document.record _ = d at h
    cases h with
    | whole => simp [Document.truncated] at hd
    | item _ _ => cases hd
    | @field fields' f hf h =>
      cases hd
      rcases List.mem_cons.mp hf with rfl | hf
      · cases h
      · obtain ⟨g, hg, rfl⟩ := List.mem_map.mp hf
        exact ⟨g, hg, h⟩
  · rintro ⟨f, hf, h⟩
    exact .field (List.mem_cons_of_mem _ (List.mem_map_of_mem hf)) h

/-- There is a mark if and only if a part lies beyond the levels that are shown. -/
theorem truncated_in_outline {levels : Nat} {c : Component} :
    Document.truncated.OccursIn (c.outline levels) ↔
      ∃ (depth : Nat) (part : Component), part.LiesAt depth c ∧ levels ≤ depth := by
  induction levels generalizing c with
  | zero =>
    rw [outline]
    exact iff_of_true .whole ⟨0, c, .root, Nat.le_refl 0⟩
  | succ levels ih =>
    cases c with
    | leaf value =>
      refine iff_of_false (not_truncated_in_leaf value) ?_
      rintro ⟨depth, part, hlies, hle⟩
      cases hlies
      cases hle
    | token kind lexeme line =>
      refine iff_of_false (not_truncated_in_token ⟨kind, lexeme, .nil, line⟩) ?_
      rintro ⟨depth, part, hlies, hle⟩
      cases hlies
      cases hle
    | row items =>
      rw [truncated_in_row]
      constructor
      · rintro ⟨c, hc, h⟩
        obtain ⟨depth, part, hlies, hle⟩ := ih.mp h
        exact ⟨depth + 1, part, .item hc hlies, Nat.succ_le_succ hle⟩
      · rintro ⟨depth, part, hlies, hle⟩
        cases hlies with
        | root => cases hle
        | item hc hlies => exact ⟨_, hc, ih.mpr ⟨_, part, hlies, Nat.le_of_succ_le_succ hle⟩⟩
    | node name fields =>
      rw [truncated_in_node]
      constructor
      · rintro ⟨f, hf, h⟩
        obtain ⟨depth, part, hlies, hle⟩ := ih.mp h
        exact ⟨depth + 1, part, .field hf hlies, Nat.succ_le_succ hle⟩
      · rintro ⟨depth, part, hlies, hle⟩
        cases hlies with
        | root => cases hle
        | field hf hlies => exact ⟨_, hf, ih.mpr ⟨_, part, hlies, Nat.le_of_succ_le_succ hle⟩⟩

/-! ## Telling components apart -/

/-- Rows that are mapped alike are the same if that tells the items of one from all others. -/
theorem eq_of_map_eq {α β : Type} {f g : α → β} : ∀ {xs ys : List α},
    (∀ x ∈ xs, ∀ y ∈ ys, f x = g y → x = y) → xs.map f = ys.map g → xs = ys
  | [], [], _, _ => rfl
  | [], _ :: _, _, heq | _ :: _, [], _, heq => by cases heq
  | x :: xs, y :: ys, h, heq => by
    obtain ⟨hx, hxs⟩ := List.forall_mem_cons.mp h
    obtain ⟨hhead, htail⟩ := List.cons.inj heq
    rw [hx y List.mem_cons_self hhead,
      eq_of_map_eq (fun x hx y hy ↦ hxs x hx y (List.mem_cons_of_mem _ hy)) htail]

theorem document_injective {value value' : Literal} (h : value.document = value'.document) :
    value = value' := by
  cases value <;> cases value' <;> cases h <;> rfl

/-- A constant is never shown as a row or a record. -/
theorem document_isConstant (value : Literal) :
    (∀ items, value.document ≠ .list items) ∧ ∀ fields, value.document ≠ .record fields := by
  cases value <;> exact ⟨nofun, nofun⟩

/-- Without a mark, components that are shown alike are the same, whatever the depths are. -/
theorem outline_injective {levels levels' : Nat} {c c' : Component}
    (hwhole : ¬ Document.truncated.OccursIn (c.outline levels))
    (heq : c.outline levels = c'.outline levels') : c = c' := by
  induction levels generalizing levels' c c' with
  | zero => exact absurd .whole hwhole
  | succ levels ih =>
    cases levels' with
    | zero =>
      rw [heq] at hwhole
      exact absurd .whole hwhole
    | succ levels' =>
      cases c with
      | leaf value =>
        cases c' with
        | leaf value' => rw [document_injective heq]
        | row items' => exact absurd heq ((document_isConstant value).1 _)
        | token _ _ _ | node _ _ => exact absurd heq ((document_isConstant value).2 _)
      | token kind lexeme line =>
        cases c' with
        | leaf value' => exact absurd heq.symm ((document_isConstant value').2 _)
        | token kind' lexeme' line' =>
          simp only [outline, Token.document, Document.record.injEq, List.cons.injEq, Prod.mk.injEq,
            Document.text.injEq, Document.count.injEq, true_and, and_true] at heq
          obtain ⟨hkind, rfl, rfl⟩ := heq
          rw [Kind.name_injective hkind]
        | row items' => cases heq
        | node name' fields' => simp [outline, Token.document, Outline.node] at heq
      | row items =>
        cases c' with
        | leaf value' => exact absurd heq.symm ((document_isConstant value').1 _)
        | row items' =>
          rw [truncated_in_row, not_exists] at hwhole
          rw [outline, outline, Document.list.injEq] at heq
          rw [eq_of_map_eq (fun c hc c' _ ↦ ih fun h ↦ hwhole c ⟨hc, h⟩) heq]
        | token _ _ _ | node _ _ => cases heq
      | node name fields =>
        cases c' with
        | leaf value' => exact absurd heq.symm ((document_isConstant value').2 _)
        | token kind' lexeme' line' => simp [outline, Token.document, Outline.node] at heq
        | row items' => cases heq
        | node name' fields' =>
          rw [truncated_in_node, not_exists] at hwhole
          simp only [outline, Outline.node, Document.record.injEq, List.cons.injEq, Prod.mk.injEq,
            Document.text.injEq, true_and] at heq
          obtain ⟨rfl, heq⟩ := heq
          refine congrArg (node name) (eq_of_map_eq (fun f hf f' _ hff' ↦ ?_) heq)
          obtain ⟨hkey, hshown⟩ := Prod.mk.inj hff'
          exact Prod.ext hkey (ih (fun h ↦ hwhole f ⟨hf, h⟩) hshown)

end Component

end Lox
