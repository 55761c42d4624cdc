import Lox.Proofs.Lines.Lexing
import Mathlib.Data.Nat.Find

/-!
# The longest lexeme

Which texts are tokens can be said without saying how they are found: `IsLexeme` lists them, one
rule for each form. The rest is one principle. Of all the lexemes that a text begins with, the
longest one is taken, and what is no lexeme is skipped: a blank, a comment, a character that no
lexeme begins with, or a string that is never closed. `Piece.Precedes` says so of a piece and of the
text behind it.

## One piece

The principle settles what the first piece is, and the lexer takes that piece. So the converse needs
no look at the lexer: as every text that is not empty has a first piece by the principle, that piece
is the one that the lexer takes.
-/

namespace Lox

/-! ## The texts of tokens -/

/-- The decimal digits. -/
def IsDigit (c : Char) : Prop := '0' ≤ c ∧ c ≤ '9'

/-- The characters that a name can begin with. -/
def IsLetter (c : Char) : Prop := ('a' ≤ c ∧ c ≤ 'z') ∨ ('A' ≤ c ∧ c ≤ 'Z') ∨ c = '_'

instance : DecidablePred IsDigit := fun c ↦ inferInstanceAs (Decidable ('0' ≤ c ∧ c ≤ '9'))

instance : DecidablePred IsLetter := fun c ↦
  inferInstanceAs (Decidable (('a' ≤ c ∧ c ≤ 'z') ∨ ('A' ≤ c ∧ c ≤ 'Z') ∨ c = '_'))

/-- The characters between tokens that mean nothing. -/
def blanks : List Char := [' ', '\t', '\r', '\n']

/-- Rows of at least one digit. -/
def IsDigits (cs : List Char) : Prop := cs ≠ [] ∧ ∀ c ∈ cs, IsDigit c

/-- Names and reserved words. -/
inductive IsWord : List Char → Prop
  | intro {c : Char} {cs : List Char} :
      IsLetter c → (∀ d ∈ cs, IsLetter d ∨ IsDigit d) → IsWord (c :: cs)

/-- The texts of tokens, each with the kind and the value of its token. -/
inductive IsLexeme : List Char → Kind → Literal → Prop
  | symbol {c : Char} {kind : Kind} : Kind.ofSymbol? c = some kind → IsLexeme [c] kind .nil
  | symbolPair {c d : Char} {kind : Kind} :
      Kind.ofSymbolPair? c d = some kind → IsLexeme [c, d] kind .nil
  | reserved {cs : List Char} {kind : Kind} :
      IsWord cs → Kind.ofWord? (String.ofList cs) = some kind → IsLexeme cs kind .nil
  | identifier {cs : List Char} :
      IsWord cs → Kind.ofWord? (String.ofList cs) = none → IsLexeme cs .identifier .nil
  | whole {digits : List Char} :
      IsDigits digits → IsLexeme digits .number (.number (Number.ofLiteral digits []))
  | fraction {digits decimals : List Char} : IsDigits digits → IsDigits decimals →
      IsLexeme (digits ++ '.' :: decimals) .number (.number (Number.ofLiteral digits decimals))
  | string {body : List Char} : '"' ∉ body →
      IsLexeme ('"' :: body ++ ['"']) .string (.string (String.ofList body))

/-- Where `text` is followed by `rest`, no lexeme begins with `text` and goes on further. -/
def Unsurpassed (text rest : List Char) : Prop :=
  ∀ longer, longer <+: text ++ rest → text.length < longer.length →
    ∀ kind value, ¬ IsLexeme longer kind value

/-- A piece is the one to be taken from a text, of which `rest` is left then. -/
inductive Piece.Precedes : Piece → List Char → Prop
  | blank {c : Char} {rest : List Char} : c ∈ blanks → Precedes ⟨.blank, [c]⟩ rest
  | comment {body rest : List Char} : '\n' ∉ body → (∀ c ∈ rest.head?, c = '\n') →
      Precedes ⟨.blank, '/' :: '/' :: body⟩ rest
  | lexeme {text rest : List Char} {kind : Kind} {value : Literal} : IsLexeme text kind value →
      ¬ ['/', '/'] <+: text ++ rest → Unsurpassed text rest →
      Precedes ⟨.lexeme kind value, text⟩ rest
  | unexpected {c : Char} {rest : List Char} : c ∉ blanks → c ≠ '"' →
      (∀ text, text <+: c :: rest → ∀ kind value, ¬ IsLexeme text kind value) →
      Precedes ⟨.fault .unexpectedCharacter, [c]⟩ rest
  | unterminated {body : List Char} : '"' ∉ body →
      Precedes ⟨.fault .unterminatedString, '"' :: body⟩ []

/-! ## Characters -/

theorem isDigit_iff {c : Char} : c.isDigit = true ↔ IsDigit c := by
  simp [IsDigit, Char.isDigit, Char.le_def]

theorem startsWord_iff {c : Char} : Piece.startsWord c = true ↔ IsLetter c := by
  have hupper : c.isUpper = true ↔ 'A' ≤ c ∧ c ≤ 'Z' := decide_eq_true_iff
  have hlower : c.isLower = true ↔ 'a' ≤ c ∧ c ≤ 'z' :=
    Bool.and_eq_true_iff.trans (and_congr decide_eq_true_iff decide_eq_true_iff)
  have halpha : c.isAlpha = true ↔ c.isUpper = true ∨ c.isLower = true := Bool.or_eq_true_iff
  rw [Piece.startsWord, Bool.or_eq_true, halpha, hupper, hlower, decide_eq_true_iff, IsLetter]
  constructor
  · rintro ((h | h) | h)
    · exact .inr (.inl h)
    · exact .inl h
    · exact .inr (.inr h)
  · rintro (h | h | h)
    · exact .inl (.inr h)
    · exact .inl (.inl h)
    · exact .inr h

theorem continuesWord_iff {c : Char} :
    Piece.continuesWord c = true ↔ IsLetter c ∨ IsDigit c := by
  rw [Piece.continuesWord, Bool.or_eq_true, startsWord_iff, isDigit_iff]

theorem isSpace_iff {c : Char} : Piece.isSpace c = true ↔ c ∈ blanks := by
  simp [Piece.isSpace, blanks, or_assoc]

theorem IsLetter.not_isDigit {c : Char} (h : IsLetter c) : ¬ IsDigit c := by
  simp only [IsLetter, IsDigit, Char.le_def, UInt32.le_iff_toNat_le] at h ⊢
  rcases h with h | h | rfl
  · have : 'a'.val.toNat = 97 := rfl
    have : '9'.val.toNat = 57 := rfl
    omega
  · have : 'A'.val.toNat = 65 := rfl
    have : '9'.val.toNat = 57 := rfl
    omega
  · decide

theorem apart_of_wordCharacter {c : Char} (h : IsLetter c ∨ IsDigit c) :
    c ∉ blanks ∧ c ≠ '/' ∧ c ≠ '"' := by
  have hne : ∀ d, ¬ (IsLetter d ∨ IsDigit d) → c ≠ d := fun d hd heq ↦ hd (heq ▸ h)
  refine ⟨fun hc ↦ ?_, hne _ (by decide), hne _ (by decide)⟩
  simp only [blanks, List.mem_cons, List.not_mem_nil, or_false] at hc
  rcases hc with rfl | rfl | rfl | rfl <;> exact absurd h (by decide)

/-- A symbol begins no other token, and it is no blank. -/
theorem apart_of_ofSymbol? {c : Char} {kind : Kind} (h : Kind.ofSymbol? c = some kind) :
    c ∉ blanks ∧ c ≠ '"' ∧ ¬ IsDigit c ∧ ¬ IsLetter c := by
  unfold Kind.ofSymbol? at h
  split at h
  all_goals first | decide | cases h

/-- A symbol of two characters begins with a symbol. -/
theorem isSome_of_ofSymbolPair? {c d : Char} {kind : Kind}
    (h : Kind.ofSymbolPair? c d = some kind) : (Kind.ofSymbol? c).isSome := by
  unfold Kind.ofSymbolPair? at h
  split at h
  all_goals first | decide | cases h

theorem IsWord.exists_lexeme {cs : List Char} (h : IsWord cs) :
    ∃ kind value, IsLexeme cs kind value := by
  cases hkind : Kind.ofWord? (String.ofList cs) with
  | some kind => exact ⟨kind, .nil, .reserved h hkind⟩
  | none => exact ⟨.identifier, .nil, .identifier h hkind⟩

theorem Unsurpassed.not_lexeme {text rest tail : List Char} (h : Unsurpassed text rest)
    (more : List Char)
    (hrest : rest = more ++ tail) (hmore : more ≠ []) (kind : Kind) (value : Literal) :
    ¬ IsLexeme (text ++ more) kind value := by
  refine h _ ⟨tail, by rw [hrest, List.append_assoc]⟩ ?_ kind value
  rw [List.length_append]
  exact Nat.lt_add_of_pos_right (List.length_pos_iff.mpr hmore)

/-- A text that one character would make a lexeme is not followed by such a character. -/
theorem Unsurpassed.not_lexeme_head {text rest : List Char} {d : Char} (h : Unsurpassed text rest)
    (hd : d ∈ rest.head?) (kind : Kind) (value : Literal) :
    ¬ IsLexeme (text ++ [d]) kind value := by
  obtain ⟨tail, rfl⟩ : ∃ tail, rest = d :: tail := by
    cases rest with
    | nil => cases hd
    | cons x tail => cases hd; exact ⟨tail, rfl⟩
  exact h.not_lexeme [d] rfl (List.cons_ne_nil d []) kind value

/-- A row that ends where a run of characters of one sort ends. -/
theorem span_of_stop {p : Char → Bool} (body rest : List Char) (hbody : ∀ c ∈ body, p c = true)
    (hrest : ∀ c ∈ rest.head?, p c = false) :
    (body ++ rest).takeWhile p = body ∧ (body ++ rest).dropWhile p = rest := by
  rw [List.takeWhile_append_of_pos hbody, List.dropWhile_append_of_pos hbody]
  cases rest with
  | nil => exact ⟨List.append_nil body, rfl⟩
  | cons c rest =>
    have hc : ¬ p c = true := by rw [hrest c rfl]; exact Bool.false_ne_true
    rw [List.takeWhile_cons_of_neg hc, List.dropWhile_cons_of_neg hc]
    exact ⟨List.append_nil body, rfl⟩

namespace Piece

variable {c : Char} {cs body rest : List Char}

/-! ## What a character begins -/

theorem first_of_blank (h : c ∈ blanks) : first c cs = (⟨.blank, [c]⟩, cs) := by
  rw [first, if_pos (isSpace_iff.mpr h)]

theorem first_quote : first '"' cs = string cs := by
  rw [first, if_neg (by decide), if_neg (fun h ↦ absurd h.1 (by decide)), if_pos rfl]

theorem first_of_isDigit (h : IsDigit c) : first c cs = number c cs := by
  obtain ⟨hblank, hslash, hquote⟩ := apart_of_wordCharacter (.inr h)
  rw [first, if_neg (isSpace_iff.not.mpr hblank), if_neg fun h ↦ hslash h.1, if_neg hquote,
    if_pos (isDigit_iff.mpr h)]

theorem first_of_isLetter (h : IsLetter c) : first c cs = word c cs := by
  obtain ⟨hblank, hslash, hquote⟩ := apart_of_wordCharacter (.inl h)
  rw [first, if_neg (isSpace_iff.not.mpr hblank), if_neg fun h ↦ hslash h.1, if_neg hquote,
    if_neg (isDigit_iff.not.mpr h.not_isDigit), if_pos (startsWord_iff.mpr h)]

/-- All other characters are symbols or nothing at all. -/
theorem first_of_apart (hblank : c ∉ blanks) (hquote : c ≠ '"') (hdigit : ¬ IsDigit c)
    (hletter : ¬ IsLetter c) (hslashes : ¬ (c = '/' ∧ cs.head? = some '/')) :
    first c cs = symbol c cs := by
  rw [first, if_neg (isSpace_iff.not.mpr hblank), if_neg hslashes, if_neg hquote,
    if_neg (isDigit_iff.not.mpr hdigit), if_neg (startsWord_iff.not.mpr hletter)]

/-! ## The piece that is taken -/

theorem word_of_stop (hcs : ∀ d ∈ cs, IsLetter d ∨ IsDigit d)
    (hrest : ∀ d ∈ rest.head?, ¬ (IsLetter d ∨ IsDigit d)) :
    word c (cs ++ rest)
      = (⟨.lexeme ((Kind.ofWord? (String.ofList (c :: cs))).getD .identifier) .nil, c :: cs⟩,
        rest) := by
  obtain ⟨htake, hdrop⟩ := span_of_stop cs rest
    (fun d hd ↦ continuesWord_iff.mpr (hcs d hd))
    fun d hd ↦ Bool.not_eq_true _ ▸ continuesWord_iff.not.mpr (hrest d hd)
  simp only [word, htake, hdrop]

/-- A number takes as many digits as there are. -/
theorem number_of_stop (hcs : ∀ d ∈ cs, IsDigit d) (hrest : ∀ d ∈ rest.head?, ¬ IsDigit d)
    (hpoint : ∀ d tail, rest = '.' :: d :: tail → ¬ IsDigit d) :
    number c (cs ++ rest) = (⟨.lexeme .number (.number (Number.ofLiteral (c :: cs) [])), c :: cs⟩,
      rest) := by
  obtain ⟨htake, hdrop⟩ := span_of_stop cs rest (fun d hd ↦ isDigit_iff.mpr (hcs d hd))
    fun d hd ↦ Bool.not_eq_true _ ▸ isDigit_iff.not.mpr (hrest d hd)
  simp only [number, htake, hdrop]
  split
  · rename_i d tail
    rw [if_neg (isDigit_iff.not.mpr (hpoint d tail rfl))]
    simp
  · simp

theorem number_of_point {d : Char} {decimals : List Char} (hcs : ∀ d ∈ cs, IsDigit d)
    (hdecimals : ∀ x ∈ d :: decimals, IsDigit x) (hrest : ∀ d ∈ rest.head?, ¬ IsDigit d) :
    number c (cs ++ '.' :: d :: (decimals ++ rest))
      = (⟨.lexeme .number (.number (Number.ofLiteral (c :: cs) (d :: decimals))),
          c :: cs ++ '.' :: d :: decimals⟩, rest) := by
  rw [List.forall_mem_cons] at hdecimals
  obtain ⟨htake, hdrop⟩ := span_of_stop (p := Char.isDigit) cs ('.' :: d :: (decimals ++ rest))
    (fun d hd ↦ isDigit_iff.mpr (hcs d hd)) fun d hd ↦ by cases hd; rfl
  obtain ⟨htake', hdrop'⟩ := span_of_stop (p := Char.isDigit) decimals rest
    (fun d hd ↦ isDigit_iff.mpr (hdecimals.2 d hd))
    fun d hd ↦ Bool.not_eq_true _ ▸ isDigit_iff.not.mpr (hrest d hd)
  simp only [number, htake, hdrop, isDigit_iff.mpr hdecimals.1, if_true, htake', hdrop']
  rfl

theorem string_of_closed (hbody : '"' ∉ body) : string (body ++ '"' :: rest)
    = (⟨.lexeme .string (.string (String.ofList body)), '"' :: body ++ ['"']⟩, rest) := by
  obtain ⟨htake, hdrop⟩ := span_of_stop (p := fun c ↦ decide (c ≠ '"')) body ('"' :: rest)
    (fun c hc ↦ decide_eq_true fun h ↦ hbody (h ▸ hc)) fun c hc ↦ by cases hc; rfl
  simp only [string, htake, hdrop]

theorem string_of_open (hbody : '"' ∉ body) :
    string body = (⟨.fault .unterminatedString, '"' :: body⟩, []) := by
  obtain ⟨htake, hdrop⟩ := span_of_stop (p := fun c ↦ decide (c ≠ '"')) body []
    (fun c hc ↦ decide_eq_true fun h ↦ hbody (h ▸ hc)) fun c hc ↦ by cases hc
  rw [List.append_nil] at htake hdrop
  simp only [string, htake, hdrop]

theorem comment_of_stop (hbody : '\n' ∉ body) (hrest : ∀ c ∈ rest.head?, c = '\n') :
    comment ('/' :: body ++ rest) = (⟨.blank, '/' :: '/' :: body⟩, rest) := by
  obtain ⟨htake, hdrop⟩ := span_of_stop (p := fun c ↦ decide (c ≠ '\n')) ('/' :: body) rest
    (List.forall_mem_cons.mpr ⟨rfl, fun c hc ↦ decide_eq_true fun h ↦ hbody (h ▸ hc)⟩)
    fun c hc ↦ decide_eq_false fun h ↦ h (hrest c hc)
  rw [comment, htake, hdrop]

theorem symbol_of_single {kind : Kind} (hkind : Kind.ofSymbol? c = some kind)
    (hrest : ∀ d ∈ rest.head?, Kind.ofSymbolPair? c d = none) :
    symbol c rest = (⟨.lexeme kind .nil, [c]⟩, rest) := by
  cases rest with
  | nil => rw [symbol, single, hkind]
  | cons d rest => rw [symbol, hrest d rfl, single, hkind]

theorem symbol_of_pair {d : Char} {kind : Kind} (hpair : Kind.ofSymbolPair? c d = some kind) :
    symbol c (d :: rest) = (⟨.lexeme kind .nil, [c, d]⟩, rest) := by
  rw [symbol, hpair]

theorem symbol_of_none (hkind : Kind.ofSymbol? c = none)
    (hrest : ∀ d ∈ rest.head?, Kind.ofSymbolPair? c d = none) :
    symbol c rest = (⟨.fault .unexpectedCharacter, [c]⟩, rest) := by
  cases rest with
  | nil => rw [symbol, single, hkind]
  | cons d rest => rw [symbol, hrest d rfl, single, hkind]

theorem first_of_word (hc : IsLetter c) (hcs : ∀ d ∈ cs, IsLetter d ∨ IsDigit d)
    (h : Unsurpassed (c :: cs) rest) : first c (cs ++ rest)
      = (⟨.lexeme ((Kind.ofWord? (String.ofList (c :: cs))).getD .identifier) .nil, c :: cs⟩,
        rest) := by
  rw [first_of_isLetter hc]
  refine word_of_stop hcs fun d hd hword ↦ ?_
  have hlonger : IsWord (c :: cs ++ [d]) := .intro hc fun x hx ↦ by
    rcases List.mem_append.mp hx with hx | hx
    · exact hcs x hx
    · exact List.mem_singleton.mp hx ▸ hword
  obtain ⟨kind, value, hlexeme⟩ := hlonger.exists_lexeme
  exact h.not_lexeme_head hd kind value hlexeme

theorem isDigits_append {digits : List Char} {d : Char} (h : ∀ c ∈ digits, IsDigit c)
    (hd : IsDigit d) : IsDigits (digits ++ [d]) := by
  refine ⟨List.append_ne_nil_of_right_ne_nil _ (List.cons_ne_nil d []), fun x hx ↦ ?_⟩
  rcases List.mem_append.mp hx with hx | hx
  · exact h x hx
  · exact List.mem_singleton.mp hx ▸ hd

theorem first_of_whole (hdigits : ∀ d ∈ c :: cs, IsDigit d) (h : Unsurpassed (c :: cs) rest) :
    first c (cs ++ rest)
      = (⟨.lexeme .number (.number (Number.ofLiteral (c :: cs) [])), c :: cs⟩, rest) := by
  obtain ⟨hc, hcs⟩ := List.forall_mem_cons.mp hdigits
  rw [first_of_isDigit hc]
  refine number_of_stop hcs (fun d hd hdigit ↦ ?_) fun d tail hrest hdigit ↦ ?_
  · exact h.not_lexeme_head hd _ _ (.whole (isDigits_append hdigits hdigit))
  · exact h.not_lexeme ['.', d] hrest (List.cons_ne_nil _ _) _ _
      (.fraction ⟨List.cons_ne_nil c cs, hdigits⟩ (isDigits_append (List.forall_mem_nil _) hdigit))

theorem first_of_fraction {d : Char} {decimals : List Char} (hdigits : ∀ d ∈ c :: cs, IsDigit d)
    (hdecimals : ∀ x ∈ d :: decimals, IsDigit x)
    (h : Unsurpassed (c :: cs ++ '.' :: d :: decimals) rest) :
    first c (cs ++ '.' :: d :: (decimals ++ rest))
      = (⟨.lexeme .number (.number (Number.ofLiteral (c :: cs) (d :: decimals))),
          c :: cs ++ '.' :: d :: decimals⟩, rest) := by
  obtain ⟨hc, hcs⟩ := List.forall_mem_cons.mp hdigits
  rw [first_of_isDigit hc]
  refine number_of_point hcs hdecimals fun x hx hdigit ↦ ?_
  have hlonger := IsLexeme.fraction ⟨List.cons_ne_nil c cs, hdigits⟩
    (isDigits_append hdecimals hdigit)
  exact h.not_lexeme_head hx _ _ (by rwa [List.append_assoc, List.cons_append])

theorem first_of_symbol {kind : Kind} (hkind : Kind.ofSymbol? c = some kind)
    (hslashes : ¬ ['/', '/'] <+: c :: rest) : first c rest = symbol c rest := by
  obtain ⟨hblank, hquote, hdigit, hletter⟩ := apart_of_ofSymbol? hkind
  refine first_of_apart hblank hquote hdigit hletter ?_
  rintro ⟨rfl, hhead⟩
  cases rest with
  | nil => cases hhead
  | cons d rest =>
    cases hhead
    exact hslashes ⟨rest, rfl⟩

/-- Where no lexeme begins, the character is no symbol either. -/
theorem first_of_no_lexeme (hblank : c ∉ blanks) (hquote : c ≠ '"')
    (hnone : ∀ text, text <+: c :: rest → ∀ kind value, ¬ IsLexeme text kind value) :
    first c rest = (⟨.fault .unexpectedCharacter, [c]⟩, rest) := by
  have hbegins : [c] <+: c :: rest := ⟨rest, rfl⟩
  have hkind : Kind.ofSymbol? c = none := by
    cases hkind : Kind.ofSymbol? c with
    | none => rfl
    | some kind => exact absurd (.symbol hkind) (hnone [c] hbegins kind .nil)
  have hdigit : ¬ IsDigit c := fun hc ↦ hnone [c] hbegins _ _
    (.whole (isDigits_append (List.forall_mem_nil _) hc))
  have hletter : ¬ IsLetter c := fun hc ↦ by
    obtain ⟨kind, value, hlexeme⟩ := (IsWord.intro hc (List.forall_mem_nil _)).exists_lexeme
    exact hnone [c] hbegins kind value hlexeme
  rw [first_of_apart hblank hquote hdigit hletter fun h ↦ by rw [h.1] at hkind; cases hkind]
  refine symbol_of_none hkind fun d _ ↦ ?_
  cases hpair : Kind.ofSymbolPair? c d with
  | none => rfl
  | some kind =>
    obtain ⟨kind', hkind'⟩ := Option.isSome_iff_exists.mp (isSome_of_ofSymbolPair? hpair)
    exact absurd (hkind.symm.trans hkind') (Option.some_ne_none kind').symm

/-- The principle settles what the first piece of a text is. -/
theorem Precedes.first_eq {p : Piece} (h : p.Precedes rest) (htext : p.text ++ rest = c :: cs) :
    first c cs = (p, rest) := by
  cases h with
  | blank hc =>
    cases htext
    exact first_of_blank hc
  | comment hbody hrest =>
    simp only [List.cons_append, List.cons.injEq] at htext
    obtain ⟨rfl, rfl⟩ := htext
    exact comment_of_stop hbody hrest
  | unexpected hblank hquote hnone =>
    cases htext
    exact first_of_no_lexeme hblank hquote hnone
  | unterminated hbody =>
    simp only [List.append_nil, List.cons.injEq] at htext
    obtain ⟨rfl, rfl⟩ := htext
    rw [first_quote]
    exact string_of_open hbody
  | lexeme hlexeme hslashes hlongest =>
    cases hlexeme with
    | symbol hkind =>
      cases htext
      rw [first_of_symbol hkind hslashes]
      refine symbol_of_single hkind fun d hd ↦ ?_
      cases hpair : Kind.ofSymbolPair? c d with
      | none => rfl
      | some kind => exact absurd (.symbolPair hpair) (hlongest.not_lexeme_head hd _ _)
    | symbolPair hpair =>
      simp only [List.cons_append, List.nil_append, List.cons.injEq] at htext
      obtain ⟨rfl, rfl⟩ := htext
      obtain ⟨kind, hkind⟩ := Option.isSome_iff_exists.mp (isSome_of_ofSymbolPair? hpair)
      exact (first_of_symbol hkind hslashes).trans (symbol_of_pair hpair)
    | reserved hword hkind =>
      cases hword with
      | intro hc hcs =>
        simp only [List.cons_append, List.cons.injEq] at htext
        obtain ⟨rfl, rfl⟩ := htext
        rw [first_of_word hc hcs hlongest, hkind]
        rfl
    | identifier hword hkind =>
      cases hword with
      | intro hc hcs =>
        simp only [List.cons_append, List.cons.injEq] at htext
        obtain ⟨rfl, rfl⟩ := htext
        rw [first_of_word hc hcs hlongest, hkind]
        rfl
    | whole hdigits =>
      obtain ⟨x, digits, rfl⟩ := List.exists_cons_of_ne_nil hdigits.1
      simp only [List.cons_append, List.cons.injEq] at htext
      obtain ⟨rfl, rfl⟩ := htext
      exact first_of_whole hdigits.2 hlongest
    | fraction hdigits hdecimals =>
      obtain ⟨x, digits, rfl⟩ := List.exists_cons_of_ne_nil hdigits.1
      obtain ⟨d, decimals, rfl⟩ := List.exists_cons_of_ne_nil hdecimals.1
      simp only [List.cons_append, List.append_assoc, List.cons.injEq] at htext
      obtain ⟨rfl, rfl⟩ := htext
      exact first_of_fraction hdigits.2 hdecimals.2 hlongest
    | string hbody =>
      simp only [List.cons_append, List.append_assoc, List.nil_append, List.cons.injEq] at htext
      obtain ⟨rfl, rfl⟩ := htext
      rw [first_quote]
      exact string_of_closed hbody

/-- Of the lexemes that a text begins with, one is the longest. -/
theorem exists_unsurpassed {text : List Char} {kind : Kind} {value : Literal}
    (hbegins : text <+: cs) (h : IsLexeme text kind value) :
    ∃ text rest kind value, text ++ rest = cs ∧ IsLexeme text kind value ∧
      Unsurpassed text rest := by
  classical
  let P (n : Nat) : Prop := ∃ kind value, IsLexeme (cs.take n) kind value
  have hlength : text.length ≤ cs.length := hbegins.length_le
  have htext : P text.length := ⟨kind, value, by rwa [← List.prefix_iff_eq_take.mp hbegins]⟩
  obtain ⟨kind', value', hlexeme⟩ := Nat.findGreatest_spec hlength htext
  refine ⟨_, _, kind', value', List.take_append_drop _ cs, hlexeme, ?_⟩
  intro longer hlonger hlt kind value hkind
  rw [List.take_append_drop] at hlonger
  rw [List.length_take_of_le (Nat.findGreatest_le _)] at hlt
  have hP : P longer.length := ⟨kind, value, by rwa [← List.prefix_iff_eq_take.mp hlonger]⟩
  exact absurd (Nat.le_findGreatest hlonger.length_le hP) (Nat.not_le.mpr hlt)

theorem exists_precedes (c : Char) (cs : List Char) :
    ∃ p rest, p.text ++ rest = c :: cs ∧ Precedes p rest := by
  by_cases hblank : c ∈ blanks
  · exact ⟨_, cs, rfl, .blank hblank⟩
  by_cases hslashes : ['/', '/'] <+: c :: cs
  · obtain ⟨tail, htail⟩ := hslashes
    refine ⟨⟨.blank, '/' :: '/' :: tail.takeWhile fun c ↦ decide (c ≠ '\n')⟩,
      tail.dropWhile fun c ↦ decide (c ≠ '\n'), ?_, .comment ?_ ?_⟩
    · rw [List.cons_append, List.cons_append, List.takeWhile_append_dropWhile]
      exact htail
    · intro h
      have hne := List.all_eq_true.mp List.all_takeWhile _ h
      exact absurd rfl (of_decide_eq_true hne)
    · intro d hd
      have hstop := List.head?_dropWhile_not (fun c ↦ decide (c ≠ '\n')) tail
      rw [hd] at hstop
      simpa using hstop
  by_cases hlexeme : ∃ text, text <+: c :: cs ∧ ∃ kind value, IsLexeme text kind value
  · obtain ⟨text, hbegins, kind, value, hlexeme⟩ := hlexeme
    obtain ⟨text, rest, kind, value, htext, hlexeme, hlongest⟩ :=
      exists_unsurpassed hbegins hlexeme
    exact ⟨⟨.lexeme kind value, text⟩, rest, htext,
      .lexeme hlexeme (by rwa [htext]) hlongest⟩
  by_cases hquote : c = '"'
  · refine ⟨⟨.fault .unterminatedString, '"' :: cs⟩, [], by rw [hquote, List.append_nil],
      .unterminated fun hmem ↦ hlexeme ?_⟩
    obtain ⟨body, rest, rfl, hbody⟩ := List.eq_append_cons_of_mem hmem
    exact ⟨'"' :: body ++ ['"'], ⟨rest, by simp [hquote]⟩, _, _, .string hbody⟩
  · exact ⟨_, cs, rfl, .unexpected hblank hquote fun text hbegins kind value h ↦
      hlexeme ⟨text, hbegins, kind, value, h⟩⟩

/-- The lexer takes the piece that the principle says, and leaves the rest. -/
theorem precedes_first (c : Char) (cs : List Char) : (first c cs).1.Precedes (first c cs).2 := by
  obtain ⟨p, rest, htext, h⟩ := exists_precedes c cs
  rw [h.first_eq htext]
  exact h

end Piece

end Lox
