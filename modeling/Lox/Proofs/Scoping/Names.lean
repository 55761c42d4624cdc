import Lox.Proofs.Scoping.Judgement
import Lox.Token.Lexer

/-!
# Names and reserved words

A name is never a reserved word, and the words `this` and `super` are spelled in one way only. So
what a program declares cannot be mistaken for the scopes that the language itself adds.
-/

namespace Lox

/-- A token that is spelled as its kind asks for, as far as names are concerned. -/
structure Token.Genuine (t : Token) : Prop where
  ordinary : t.kind = .identifier → Ordinary t.lexeme
  self : t.kind = .this → t.lexeme = "this"
  inherited : t.kind = .super → t.lexeme = "super"

theorem Kind.eq_of_ofWord?_this {word : String} (h : Kind.ofWord? word = some .this) :
    word = "this" := by
  unfold Kind.ofWord? at h
  split at h <;> first | rfl | cases h

theorem Kind.eq_of_ofWord?_super {word : String} (h : Kind.ofWord? word = some .super) :
    word = "super" := by
  unfold Kind.ofWord? at h
  split at h <;> first | rfl | cases h

theorem Kind.ordinary_of_ofWord? {word : String} (h : Kind.ofWord? word = none) :
    Ordinary word := by
  constructor
  · rintro rfl
    cases h
  · rintro rfl
    cases h

/-- Whether a kind is one of those that a word can have. -/
def Kind.isWord (kind : Kind) : Bool :=
  decide (kind = .identifier ∨ kind = .this ∨ kind = .super)

theorem Token.Genuine.of_not_word {t : Token} (h : t.kind.isWord = false) : t.Genuine := by
  have hkind := of_decide_eq_false h
  exact ⟨fun h ↦ absurd (.inl h) hkind, fun h ↦ absurd (.inr (.inl h)) hkind,
    fun h ↦ absurd (.inr (.inr h)) hkind⟩

namespace Piece

/-- The token that a piece becomes is genuine. -/
def Genuine (p : Piece) : Prop := ∀ kind value line,
  p.role = .lexeme kind value → (⟨kind, String.ofList p.text, value, line⟩ : Token).Genuine

theorem genuine_of_not_word {kind : Kind} {value : Literal} {text : List Char}
    (h : kind.isWord = false) : (⟨.lexeme kind value, text⟩ : Piece).Genuine := by
  rintro _ _ line ⟨⟩
  exact .of_not_word h

theorem genuine_word (c : Char) (cs : List Char) : (word c cs).1.Genuine := by
  rintro kind value line hrole
  simp only [word, Role.lexeme.injEq] at hrole ⊢
  obtain ⟨rfl, rfl⟩ := hrole
  cases hword : Kind.ofWord? (String.ofList (c :: cs.takeWhile continuesWord)) with
  | none =>
    refine ⟨fun _ ↦ Kind.ordinary_of_ofWord? hword, fun h ↦ ?_, fun h ↦ ?_⟩ <;> cases h
  | some kind =>
    refine ⟨fun h ↦ ?_, fun h ↦ ?_, fun h ↦ ?_⟩
    · rw [show kind = .identifier from h] at hword
      unfold Kind.ofWord? at hword
      split at hword <;> cases hword
    · rw [show kind = .this from h] at hword
      exact Kind.eq_of_ofWord?_this hword
    · rw [show kind = .super from h] at hword
      exact Kind.eq_of_ofWord?_super hword

theorem genuine_single (c : Char) (cs : List Char) : (single c cs).1.Genuine := by
  unfold single
  split
  · rename_i kind h
    refine genuine_of_not_word ?_
    unfold Kind.ofSymbol? at h
    split at h <;> cases h <;> rfl
  · rintro _ _ _ ⟨⟩

theorem genuine_symbol (c : Char) (cs : List Char) : (symbol c cs).1.Genuine := by
  unfold symbol
  split
  · exact genuine_single c []
  · split
    · rename_i d cs kind h
      refine genuine_of_not_word ?_
      unfold Kind.ofSymbolPair? at h
      split at h <;> cases h <;> rfl
    · exact genuine_single c _

theorem genuine_first (c : Char) (cs : List Char) : (first c cs).1.Genuine := by
  unfold first
  split
  · rintro _ _ _ ⟨⟩
  split
  · rintro _ _ _ ⟨⟩
  split
  · simp only [string]
    split
    · rintro _ _ _ ⟨⟩
    · exact genuine_of_not_word rfl
  split
  · simp only [number]
    split
    · split <;> exact genuine_of_not_word rfl
    · exact genuine_of_not_word rfl
  split
  · exact genuine_word c cs
  · exact genuine_symbol c cs

theorem genuine_cutOnto (cs : List Char) (read : List Piece) (h : ∀ p ∈ read, p.Genuine) :
    ∀ p ∈ cutOnto cs read, p.Genuine := by
  fun_induction cutOnto cs read with
  | case1 read => exact fun p hp ↦ h p (List.mem_reverse.mp hp)
  | case2 read c cs ih => exact ih (List.forall_mem_cons.mpr ⟨genuine_first c cs, h⟩)

end Piece

theorem Scan.genuine_walk {pieces : List Piece} (hpieces : ∀ p ∈ pieces, p.Genuine) (w : Walk)
    (hw : ∀ t ∈ w.tokens, t.Genuine) : ∀ t ∈ (pieces.foldl Walk.step w).tokens, t.Genuine := by
  induction pieces generalizing w with
  | nil => exact hw
  | cons p pieces ih =>
    obtain ⟨hp, hpieces⟩ := List.forall_mem_cons.mp hpieces
    refine ih hpieces (w.step p) ?_
    rw [Walk.step]
    cases hrole : p.role with
    | blank => exact hw
    | fault error => exact hw
    | lexeme kind value => exact List.forall_mem_cons.mpr ⟨hp kind value _ hrole, hw⟩

/-- Every token of a source text is genuine. -/
theorem genuine_of_mem_scan {source : String} {t : Token} (h : t ∈ (scan source).tokens) :
    t.Genuine := by
  rw [scan, Scan.ofPieces, List.mem_reverse] at h
  exact Scan.genuine_walk (Piece.genuine_cutOnto _ [] (List.forall_mem_nil _)) _
    (List.forall_mem_nil _) t h

end Lox
