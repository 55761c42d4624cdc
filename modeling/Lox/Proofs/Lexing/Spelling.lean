import Lox.Proofs.Lexing.Division

/-!
# Spelling

A row of lexemes is spelled by writing them down with a separator between any two: a blank, and then
any mix of blanks and comments. Scanning undoes spelling, whatever the separators are, since behind
a lexeme the blank of a separator, or the end of the text, is where the longest lexeme ends.
Only a string goes on over a blank, and a string is settled by its closing quote.

What scanning gives back is the essence of each token, which is all of it but the line.
-/

namespace Lox

/-! ## Lexemes and separators -/

/-- A valid token, written down. -/
structure Lexeme where
  text : List Char
  kind : Kind
  value : Literal
  isLexeme : IsLexeme text kind value

/-- Mixes of blanks and comments, each comment up to the line feed that ends it. -/
inductive IsLayout : List Char → Prop
  | nil : IsLayout []
  | blank {c : Char} {cs : List Char} : c ∈ blanks → IsLayout cs → IsLayout (c :: cs)
  | comment {body cs : List Char} : '\n' ∉ body → IsLayout cs →
      IsLayout ('/' :: '/' :: body ++ '\n' :: cs)

/-- What can stand between two tokens. -/
structure Separator where
  blank : Char
  layout : List Char
  mem_blanks : blank ∈ blanks
  isLayout : IsLayout layout

namespace Separator

def text (s : Separator) : List Char := s.blank :: s.layout

theorem isLayout_text (s : Separator) : IsLayout s.text := .blank s.mem_blanks s.isLayout

theorem head_mem_blanks (s : Separator) {rest : List Char} :
    ∀ c ∈ (s.text ++ rest).head?, c ∈ blanks := by
  rintro c hc
  cases hc
  exact s.mem_blanks

end Separator

/-- The lexemes in a row, with the separators in between. -/
def spell (gap : Nat → Separator) : List Lexeme → List Char
  | [] => []
  | [l] => l.text
  | l :: m :: ls => l.text ++ ((gap 0).text ++ spell (fun n ↦ gap (n + 1)) (m :: ls))

/-- The kind, the lexeme and the value of a token. -/
def Token.essence (t : Token) : Kind × String × Literal := (t.kind, t.lexeme, t.value)

def Lexeme.essence (l : Lexeme) : Kind × String × Literal := (l.kind, String.ofList l.text, l.value)

/-- A scan is silent, and its tokens have the essences `es`. -/
def Scan.Finds (s : Scan) (es : List (Kind × String × Literal)) : Prop :=
  s.errors = [] ∧ s.allTokens.map Token.essence = es

/-- The lexemes of a row of tokens, joined by spaces. -/
def joinLexemes (tokens : List Token) : String := " ".intercalate (tokens.map Token.lexeme)

/-! ## Where a lexeme ends -/

theorem apart_of_ofSymbolPair? {c d : Char} {kind : Kind}
    (h : Kind.ofSymbolPair? c d = some kind) : c ≠ '/' ∧ d = '=' := by
  unfold Kind.ofSymbolPair? at h
  split at h
  all_goals first | decide | cases h

theorem IsWord.apart {cs : List Char} (h : IsWord cs) :
    ∀ c ∈ cs, c ∉ blanks ∧ c ≠ '/' ∧ c ≠ '"' := by
  cases h with
  | intro hc hcs =>
    exact List.forall_mem_cons.mpr
      ⟨apart_of_wordCharacter (.inl hc), fun d hd ↦ apart_of_wordCharacter (hcs d hd)⟩

theorem IsDigits.apart {cs : List Char} (h : IsDigits cs) :
    ∀ c ∈ cs, c ∉ blanks ∧ c ≠ '/' ∧ c ≠ '"' :=
  fun c hc ↦ apart_of_wordCharacter (.inr (h.2 c hc))

namespace IsLexeme

variable {text : List Char} {kind : Kind} {value : Literal}

/-- Blanks and quotes are found in strings only. -/
theorem string_or_apart (h : IsLexeme text kind value) :
    (∃ body, '"' ∉ body ∧ text = '"' :: body ++ ['"']) ∨ ∀ c ∈ text, c ∉ blanks ∧ c ≠ '"' := by
  cases h with
  | string hbody => exact .inl ⟨_, hbody, rfl⟩
  | symbol hkind =>
    obtain ⟨hblank, hquote, -⟩ := apart_of_ofSymbol? hkind
    exact .inr (List.forall_mem_singleton.mpr ⟨hblank, hquote⟩)
  | symbolPair hpair =>
    obtain ⟨first, hfirst⟩ := Option.isSome_iff_exists.mp (isSome_of_ofSymbolPair? hpair)
    obtain ⟨hblank, hquote, -⟩ := apart_of_ofSymbol? hfirst
    obtain ⟨-, rfl⟩ := apart_of_ofSymbolPair? hpair
    have hequal : '=' ∉ blanks ∧ '=' ≠ '"' := by decide
    exact .inr (List.forall_mem_cons.mpr ⟨⟨hblank, hquote⟩, List.forall_mem_singleton.mpr hequal⟩)
  | reserved hword | identifier hword =>
    exact .inr fun c hc ↦ ⟨(hword.apart c hc).1, (hword.apart c hc).2.2⟩
  | whole hdigits => exact .inr fun c hc ↦ ⟨(hdigits.apart c hc).1, (hdigits.apart c hc).2.2⟩
  | fraction hdigits hdecimals =>
    refine .inr fun c hc ↦ ?_
    rcases List.mem_append.mp hc with hc | hc
    · exact ⟨(hdigits.apart c hc).1, (hdigits.apart c hc).2.2⟩
    · rcases List.mem_cons.mp hc with rfl | hc
      · decide
      · exact ⟨(hdecimals.apart c hc).1, (hdecimals.apart c hc).2.2⟩

/-- The one lexeme that begins with a slash is the slash. -/
theorem eq_slash {cs : List Char} (h : IsLexeme text kind value) (htext : text = '/' :: cs) :
    cs = [] := by
  cases h with
  | symbol => exact (List.cons.inj htext).2.symm
  | symbolPair hpair => exact absurd (List.cons.inj htext).1 (apart_of_ofSymbolPair? hpair).1
  | reserved hword | identifier hword =>
    exact absurd rfl (hword.apart '/' (htext ▸ List.mem_cons_self)).2.1
  | whole hdigits => exact absurd rfl (hdigits.apart '/' (htext ▸ List.mem_cons_self)).2.1
  | fraction hdigits =>
    obtain ⟨d, digits, rfl⟩ := List.exists_cons_of_ne_nil hdigits.1
    exact absurd (List.cons.inj htext).1 (hdigits.apart d List.mem_cons_self).2.1
  | string => exact absurd (List.cons.inj htext).1 (by decide)

theorem ne_nil (h : IsLexeme text kind value) : text ≠ [] := by
  cases h with
  | reserved hword | identifier hword => cases hword; exact List.cons_ne_nil _ _
  | whole hdigits => exact hdigits.1
  | fraction => exact List.append_ne_nil_of_right_ne_nil _ (List.cons_ne_nil _ _)
  | _ => exact List.cons_ne_nil _ _

/-- No lexeme goes on over the blank behind another one. -/
theorem not_blank_behind (h : IsLexeme text kind value) {c : Char} (hc : c ∈ blanks)
    (more : List Char) (kind' : Kind) (value' : Literal) :
    ¬ IsLexeme (text ++ c :: more) kind' value' := by
  intro hlonger
  have hmem : c ∈ text ++ c :: more := List.mem_append_right _ List.mem_cons_self
  rcases hlonger.string_or_apart with ⟨body', hbody', heq⟩ | hapart
  · -- The longer lexeme is a string, so the shorter one begins with a quote as well.
    obtain ⟨d, cs, rfl⟩ := List.exists_cons_of_ne_nil h.ne_nil
    rw [List.cons_append, List.cons_append] at heq
    obtain ⟨rfl, htail⟩ := List.cons.inj heq
    rcases h.string_or_apart with ⟨body, -, hbody⟩ | hapart
    · -- Its closing quote would be inside of the longer string.
      obtain ⟨-, rfl⟩ := List.cons.inj hbody
      have hquote : '"' ∈ (body ++ ['"'] ++ c :: more).dropLast := by
        rw [List.dropLast_append_of_ne_nil (List.cons_ne_nil c more)]
        exact List.mem_append_left _ (List.mem_append_right _ List.mem_cons_self)
      have hinside : (body ++ ['"'] ++ c :: more).dropLast = body' :=
        (congrArg List.dropLast htail).trans List.dropLast_concat
      exact hbody' (hinside ▸ hquote)
    · exact (hapart _ List.mem_cons_self).2 rfl
  · exact (hapart c hmem).1 hc

/-- A lexeme is taken as it is where a blank follows, and at the end. -/
theorem precedes (h : IsLexeme text kind value) {rest : List Char}
    (hrest : ∀ c ∈ rest.head?, c ∈ blanks) :
    Piece.Precedes ⟨.lexeme kind value, text⟩ rest := by
  refine .lexeme h ?_ ?_
  · rintro ⟨tail, htail⟩
    obtain ⟨c, cs, rfl⟩ := List.exists_cons_of_ne_nil h.ne_nil
    obtain ⟨rfl, hsecond⟩ := List.cons.inj htail
    obtain rfl := h.eq_slash rfl
    -- So the second slash would be the blank.
    have hblank : '/' ∈ blanks := hrest '/' (congrArg List.head? hsecond.symm)
    exact absurd hblank (by decide)
  · rintro longer ⟨tail, htail⟩ hlength kind' value' hlonger
    obtain ⟨more, rfl⟩ : text <+: longer :=
      List.prefix_of_prefix_length_le (List.prefix_append text rest) ⟨tail, htail⟩
        (Nat.le_of_lt hlength)
    cases more with
    | nil => rw [List.append_nil] at hlength; exact lt_irrefl _ hlength
    | cons c more =>
      rw [List.append_assoc] at htail
      have hc : c ∈ blanks := hrest c (congrArg List.head? (List.append_cancel_left htail).symm)
      exact h.not_blank_behind hc more kind' value' hlonger

end IsLexeme

/-! ## What pieces give -/

/-- The essence of the token that a piece gives. -/
def Piece.essence? (p : Piece) : Option (Kind × String × Literal) :=
  match p.role with
  | .lexeme kind value => some (kind, String.ofList p.text, value)
  | _ => none

/-- There is nothing to complain about in a piece. -/
def Piece.Sound (p : Piece) : Prop := ∀ error, p.role ≠ .fault error

/-- The piece that a lexeme is. -/
def Lexeme.piece (l : Lexeme) : Piece := ⟨.lexeme l.kind l.value, l.text⟩

theorem Lexeme.sound_piece (l : Lexeme) : l.piece.Sound := nofun

namespace Scan

theorem Walk.essence_step (w : Walk) (p : Piece) :
    (w.step p).tokens.map Token.essence = p.essence?.toList ++ w.tokens.map Token.essence := by
  unfold Walk.step Piece.essence?
  cases p.role <;> rfl

theorem Walk.errors_step (w : Walk) {p : Piece} (hp : p.Sound) : (w.step p).errors = w.errors := by
  unfold Walk.step
  cases hrole : p.role with
  | fault error => exact absurd hrole (hp error)
  | _ => rfl

theorem Walk.essence_foldl (pieces : List Piece) (w : Walk) :
    (pieces.foldl Walk.step w).tokens.map Token.essence
      = (pieces.filterMap Piece.essence?).reverse ++ w.tokens.map Token.essence := by
  induction pieces generalizing w with
  | nil => rfl
  | cons p pieces ih =>
    rw [List.foldl_cons, ih, Walk.essence_step, reverse_filterMap_cons, List.append_assoc]

theorem Walk.errors_foldl {pieces : List Piece} (h : ∀ p ∈ pieces, p.Sound) (w : Walk) :
    (pieces.foldl Walk.step w).errors = w.errors := by
  induction pieces generalizing w with
  | nil => rfl
  | cons p pieces ih =>
    obtain ⟨hp, hpieces⟩ := List.forall_mem_cons.mp h
    rw [List.foldl_cons, ih hpieces, Walk.errors_step w hp]

end Scan

namespace Divided

variable {source : String} {pieces : List Piece}

theorem essence_tokens (h : Divided source.toList pieces) :
    (scan source).tokens.map Token.essence = pieces.filterMap Piece.essence? := by
  rw [Scan.scan_eq_walk, Scan.walk, ← h.eq_cut, List.map_reverse, Scan.Walk.essence_foldl,
    List.map_nil, List.append_nil, List.reverse_reverse]

theorem errors_eq_nil (h : Divided source.toList pieces) (hsound : ∀ p ∈ pieces, p.Sound) :
    (scan source).errors = [] := by
  rw [Scan.scan_eq_walk, Scan.walk, ← h.eq_cut, Scan.Walk.errors_foldl hsound]
  rfl

end Divided

/-! ## Layout -/

/-- Text that is divided into pieces that are sound and have the essences `es`. -/
def Gives (cs : List Char) (es : List (Kind × String × Literal)) : Prop :=
  ∃ pieces, Divided cs pieces ∧ (∀ p ∈ pieces, p.Sound) ∧ pieces.filterMap Piece.essence? = es

namespace Gives

variable {cs rest : List Char} {es : List (Kind × String × Literal)}

theorem nil : Gives [] [] := ⟨[], .nil, List.forall_mem_nil _, rfl⟩

theorem cons {p : Piece} (hp : p.Precedes rest) (hsound : p.Sound) (h : Gives rest es) :
    Gives (p.text ++ rest) (p.essence?.toList ++ es) := by
  obtain ⟨pieces, hdivided, hpieces, rfl⟩ := h
  refine ⟨p :: pieces, .cons hp hdivided, List.forall_mem_cons.mpr ⟨hsound, hpieces⟩, ?_⟩
  rw [List.filterMap_cons]
  cases p.essence? <;> rfl

theorem blank {c : Char} (hc : c ∈ blanks) (h : Gives rest es) : Gives (c :: rest) es :=
  cons (.blank hc) nofun h

/-- Layout gives nothing. -/
theorem layout {layout : List Char} (hlayout : IsLayout layout) (h : Gives rest es) :
    Gives (layout ++ rest) es := by
  induction hlayout with
  | nil => exact h
  | blank hc _ ih => exact ih.blank hc
  | @comment body cs hbody _ ih =>
    have hfeed : Gives ('\n' :: (cs ++ rest)) es := ih.blank (by decide)
    have hend : ∀ c ∈ ('\n' :: (cs ++ rest)).head?, c = '\n' := fun c hc ↦ by cases hc; rfl
    rw [List.append_assoc]
    exact cons (.comment hbody hend) nofun hfeed

theorem lexeme (l : Lexeme) (hrest : ∀ c ∈ rest.head?, c ∈ blanks) (h : Gives rest es) :
    Gives (l.text ++ rest) (l.essence :: es) :=
  cons (l.isLexeme.precedes hrest) l.sound_piece h

theorem singleton (l : Lexeme) : Gives l.text [l.essence] := by
  have h := nil.lexeme l fun c hc ↦ by cases hc
  rwa [List.append_nil] at h

/-- A spelled row of lexemes gives these lexemes. -/
theorem spell (gap : Nat → Separator) (ls : List Lexeme) :
    Gives (spell gap ls) (ls.map Lexeme.essence) := by
  induction ls generalizing gap with
  | nil => exact nil
  | cons l ls ih =>
    cases ls with
    | nil => exact singleton l
    | cons m ls =>
      have hbehind := (ih fun n ↦ gap (n + 1)).layout (gap 0).isLayout_text
      exact hbehind.lexeme l (gap 0).head_mem_blanks

/-- Lexemes that are joined by spaces give these lexemes, and an empty text at the end, as is that
of the last token of a scan, makes no difference. -/
theorem joined (ls : List Lexeme) {ends : List (List Char)} (hends : ends = [] ∨ ends = [[]]) :
    Gives ([' '].intercalate (ls.map Lexeme.text ++ ends)) (ls.map Lexeme.essence) := by
  induction ls with
  | nil => rcases hends with rfl | rfl <;> exact nil
  | cons l ls ih =>
    rw [List.map_cons, List.cons_append]
    by_cases hlast : ls.map Lexeme.text ++ ends = []
    · obtain rfl : ls = [] := List.map_eq_nil_iff.mp (List.append_eq_nil_iff.mp hlast).1
      rw [hlast, List.intercalate_singleton]
      exact singleton l
    · rw [List.intercalate_cons_of_ne_nil hlast, List.append_assoc]
      exact (ih.blank (c := ' ') (by decide)).lexeme l fun c hc ↦ by cases hc; decide

end Gives

theorem Gives.finds {source : String} {es : List (Kind × String × Literal)}
    (h : Gives source.toList es) : (scan source).Finds (es ++ [(.eof, "", .nil)]) := by
  obtain ⟨pieces, hdivided, hsound, rfl⟩ := h
  refine ⟨hdivided.errors_eq_nil hsound, ?_⟩
  rw [Scan.allTokens, List.map_append, hdivided.essence_tokens, finish_scan]
  rfl

/-! ## The lexemes of a scan -/

/-- The tokens of a scan are lexemes. -/
theorem exists_lexemes (source : String) :
    ∃ ls : List Lexeme, (scan source).tokens.map Token.essence = ls.map Lexeme.essence := by
  suffices h : ∀ cs pieces, Divided cs pieces →
      ∃ ls : List Lexeme, pieces.filterMap Piece.essence? = ls.map Lexeme.essence by
    have hdivided := divided_cut source.toList
    obtain ⟨ls, hls⟩ := h _ _ hdivided
    exact ⟨ls, hdivided.essence_tokens.trans hls⟩
  intro cs pieces hdivided
  induction hdivided with
  | nil => exact ⟨[], rfl⟩
  | cons hp _ ih =>
    obtain ⟨ls, hls⟩ := ih
    cases hp with
    | lexeme hlexeme => exact ⟨⟨_, _, _, hlexeme⟩ :: ls, congrArg (_ :: ·) hls⟩
    | _ => exact ⟨ls, hls⟩

/-- Every token of a scan is a lexeme. -/
theorem isLexeme_of_mem_scan {source : String} {t : Token} (h : t ∈ (scan source).tokens) :
    IsLexeme t.lexeme.toList t.kind t.value := by
  obtain ⟨ls, hls⟩ := exists_lexemes source
  have hessence := List.mem_map_of_mem (f := Token.essence) h
  rw [hls] at hessence
  obtain ⟨l, -, hl⟩ := List.mem_map.mp hessence
  obtain ⟨hkind, hlexeme, hvalue⟩ : l.kind = t.kind ∧ String.ofList l.text = t.lexeme ∧
      l.value = t.value := by simpa [Lexeme.essence, Token.essence] using hl
  rw [← hkind, ← hlexeme, ← hvalue, String.toList_ofList]
  exact l.isLexeme

theorem toList_joinLexemes (tokens : List Token) :
    (joinLexemes tokens).toList = [' '].intercalate (tokens.map fun t ↦ t.lexeme.toList) := by
  rw [joinLexemes, String.toList_intercalate, List.map_map]
  rfl

/-- Scanning undoes spelling, whatever the layout. For every row of lexemes and every choice of
separators, the scan of the spelled text is silent and finds the kinds, lexemes and values that were
spelled, and then the end. So the lexemes that any scan has found, without that of the last token or
with it, can be joined by spaces and scanned again with the same result. -/
theorem scan_undoes_spelling :
    (∀ (ls : List Lexeme) (gap : Nat → Separator),
      (scan (String.ofList (spell gap ls))).Finds (ls.map Lexeme.essence ++ [(.eof, "", .nil)])) ∧
    ∀ source : String,
      (scan (joinLexemes (scan source).tokens)).Finds
        ((scan source).allTokens.map Token.essence) ∧
      (scan (joinLexemes (scan source).allTokens)).Finds
        ((scan source).allTokens.map Token.essence) := by
  refine ⟨fun ls gap ↦ Gives.finds ?_, fun source ↦ ?_⟩
  · rw [String.toList_ofList]
    exact .spell gap ls
  · obtain ⟨ls, hls⟩ := exists_lexemes source
    have htexts : (scan source).tokens.map (fun t ↦ t.lexeme.toList) = ls.map Lexeme.text := by
      have h := congrArg (List.map fun e ↦ e.2.1.toList) hls
      simpa [Lexeme.essence, Function.comp_def, Token.essence] using h
    have hall : (scan source).allTokens.map Token.essence
        = ls.map Lexeme.essence ++ [(.eof, "", .nil)] := by
      rw [Scan.allTokens, List.map_append, hls, finish_scan]
      rfl
    rw [hall]
    constructor
    · refine Gives.finds ?_
      rw [toList_joinLexemes, htexts, ← List.append_nil (ls.map Lexeme.text)]
      exact .joined ls (.inl rfl)
    · refine Gives.finds ?_
      rw [toList_joinLexemes, Scan.allTokens, List.map_append, htexts, finish_scan]
      exact .joined ls (.inr rfl)

end Lox
