import Lox.Proofs.Answers.Numbers
import Lox.Proofs.Lexing.Spelling
import Lox.Proofs.Numbers.Literals
import Lox.Proofs.Outlines.Located
import Lox.Proofs.Sessions.Nesting
import Lox.Service
import Mathlib.Data.List.TakeWhile

/-!
# What answers are made of

An answer of the service is plain data if all numbers in it are finite, as there is no way to write
down any others. The numbers in an answer are the values of the number literals in the source text,
each of which is listed with its token and may be shown in the tree. So an answer is plain if and
only if no literal in the text is so large that it is rounded to infinity.
-/

namespace Lox

/-- A document that can be handed to any program: all of its numbers are finite. -/
def Document.IsPlain (d : Document) : Prop := d.Numbered fun x ↦ x.isFinite = true

/-! ## Literals -/

/-- The digits of a literal before its point and behind it. -/
def Number.literalDigits (cs : List Char) : List Char × List Char :=
  (cs.takeWhile (· ≠ '.'), (cs.dropWhile (· ≠ '.')).tail)

/-- A literal is too large to be rounded to a double. -/
def Number.Overflows (cs : List Char) : Prop :=
  overflow * 10 ^ (literalDigits cs).2.length
    ≤ digitsValue ((literalDigits cs).1 ++ (literalDigits cs).2)

def Token.Overflows (t : Token) : Prop := t.kind = .number ∧ Number.Overflows t.lexeme.toList

instance : DecidablePred Number.Overflows := fun _ ↦ inferInstanceAs (Decidable (_ ≤ _))

instance : DecidablePred Token.Overflows := fun _ ↦ inferInstanceAs (Decidable (_ ∧ _))

namespace Number

variable {digits decimals : List Char}

theorem ne_point_of_isDigit (h : ∀ c ∈ digits, IsDigit c) :
    ∀ c ∈ digits, decide (c ≠ '.') = true := by
  rintro c hc
  refine decide_eq_true ?_
  rintro rfl
  exact absurd (h _ hc) (by decide)

theorem literalDigits_whole (h : ∀ c ∈ digits, IsDigit c) :
    literalDigits digits = (digits, []) := by
  rw [literalDigits, List.takeWhile_eq_self_iff.mpr (ne_point_of_isDigit h),
    List.dropWhile_eq_nil_iff.mpr (ne_point_of_isDigit h), List.tail_nil]

theorem literalDigits_fraction (h : ∀ c ∈ digits, IsDigit c) :
    literalDigits (digits ++ '.' :: decimals) = (digits, decimals) := by
  rw [literalDigits, List.takeWhile_append_of_pos (ne_point_of_isDigit h),
    List.dropWhile_append_of_pos (ne_point_of_isDigit h)]
  simp

/-- The value of a number lexeme is infinite if and only if the lexeme is too large, and it is
always a number. -/
theorem rounds_of_isLexeme {text : List Char} {kind : Kind} {x : Float}
    (h : IsLexeme text kind (.number x)) : kind = .number ∧ Rounds x (¬ Overflows text) := by
  cases h with
  | whole hdigits =>
    refine ⟨rfl, (rounds_ofLiteral hdigits.2 (List.forall_mem_nil _)).congr ?_⟩
    rw [Overflows, literalDigits_whole hdigits.2, Nat.not_le]
  | fraction hdigits hdecimals =>
    refine ⟨rfl, (rounds_ofLiteral hdigits.2 hdecimals.2).congr ?_⟩
    rw [Overflows, literalDigits_fraction hdigits.2, Nat.not_le]

end Number

section

variable {source : String} {t : Token}

theorem rounds_of_mem_scan {x : Float} (h : t ∈ (scan source).tokens) (hx : t.value = .number x) :
    Number.Rounds x (¬ t.Overflows) := by
  obtain ⟨hkind, hrounds⟩ := Number.rounds_of_isLexeme (hx ▸ isLexeme_of_mem_scan h)
  exact hrounds.congr (not_congr (and_iff_right hkind).symm)

theorem exists_number_of_mem_scan (h : t ∈ (scan source).tokens) (hkind : t.kind = .number) :
    ∃ x, t.value = .number x := by
  have hlexeme := isLexeme_of_mem_scan h
  rw [hkind] at hlexeme
  generalize t.value = value at hlexeme ⊢
  generalize t.lexeme.toList = text at hlexeme
  cases hlexeme with
  | whole _ | fraction _ _ => exact ⟨_, rfl⟩
  | symbol h =>
    unfold Kind.ofSymbol? at h
    split at h <;> cases h
  | symbolPair h =>
    unfold Kind.ofSymbolPair? at h
    split at h <;> cases h
  | reserved _ h =>
    unfold Kind.ofWord? at h
    split at h <;> cases h

end

/-! ## Answers -/

namespace Service

/-- What the service answers when it is asked about a source text. -/
inductive Answers (source : String) : Document → Prop
  | compile (nesting : Nat) : Answers source (compile nesting source)
  | run {host : Host} {maxSteps : Int} {answer : Document} :
      run host ⟨source, maxSteps⟩ = .ok answer → Answers source answer

theorem numbered_outlines {N : Float → Prop} (levels nesting : Nat) (source : String)
    (h : ∀ t ∈ (scan source).tokens, ∀ x, t.value = .number x → N x) :
    (Stmt.outlines levels (Lox.compile nesting source).program).Numbered N := by
  have hdenotes : ∀ t x, t ∈ (scan source).tokens → t.Denotes (.number x) → N x := by
    intro t x ht hdenotes
    rw [Token.Denotes] at hdenotes
    split at hdenotes
    · exact h t ht x hdenotes
    · exact h t ht x hdenotes
    all_goals cases hdenotes
  rw [Stmt.outlines_eq]
  rcases components_compile nesting source with hnone | ⟨body, hparsed, hcomponents⟩
  · rw [hnone]
    exact Component.Numbered.outline (.row (List.forall_mem_nil _)) levels
  · rw [hcomponents, Stmt.components_eq_map]
    refine Component.Numbered.outline (.row (List.forall_mem_map.mpr fun st hst ↦ ?_)) levels
    exact (drawn_of_parseProgram rfl (fun _ ht ↦ ht) hparsed st hst).numbered hdenotes

/-- The numbers in what an answer tells about the analysis of a text are those that are listed with
the tokens. -/
theorem numbered_analysis {N : Float → Prop} (nesting : Nat) (source : String) :
    (∀ f ∈ analysisFields (Lox.compile nesting source), f.2.Numbered N) ↔
      ∀ t ∈ (scan source).tokens, ∀ x, t.value = .number x → N x := by
  have htokens : (∀ t ∈ (scan source).tokens, (tokenDocument t).Numbered N) ↔
      ∀ t ∈ (scan source).tokens, ∀ x, t.value = .number x → N x := by
    refine forall₂_congr fun t _ ↦ ?_
    simp only [tokenDocument, Document.numbered_record, List.forall_mem_cons,
      Document.numbered_text, Document.numbered_count, true_and, List.not_mem_nil, false_implies,
      implies_true, and_true]
    exact Component.numbered_document
  simp only [analysisFields, scan_compile, diagnosticDocument, List.forall_mem_cons,
    Document.numbered_list, Document.numbered_record, Document.numbered_count,
    Document.numbered_text, List.forall_mem_map, List.not_mem_nil, false_implies, implies_true,
    true_and, and_true, htokens]
  exact ⟨fun h ↦ h.1, fun h ↦ ⟨h, numbered_outlines _ nesting source h⟩⟩

theorem numbered_run {N : Float → Prop} (r : Run) : (runDocument r).Numbered N := by
  have hissue : ∀ i, (issueDocument i).Numbered N := fun i ↦ by
    simp [issueDocument, Document.numbered_ofOption]
  simp [runDocument, Document.numbered_ofOption, hissue]

/-- The numbers in an answer are the values of the number literals in the text. -/
theorem numbered_answer {N : Float → Prop} {source : String} {answer : Document}
    (h : Answers source answer) :
    answer.Numbered N ↔ ∀ t ∈ (scan source).tokens, ∀ x, t.value = .number x → N x := by
  cases h with
  | compile nesting => rw [Service.compile, Document.numbered_record, numbered_analysis]
  | @run host maxSteps _ h =>
    rw [Service.run] at h
    dsimp only at h
    split at h
    · cases h
    · cases h
      simp only [Document.numbered_record, List.forall_mem_append, Session.compilation_run,
        numbered_analysis, List.forall_mem_singleton, numbered_run, and_true]

/-- An answer about a text is plain if and only if no number literal in the text is too large. It
holds only the values of the number literals, and all of them are numbers. -/
theorem isPlain_answer_iff {source : String} {answer : Document} (h : Answers source answer) :
    (answer.IsPlain ↔ ∀ t ∈ (scan source).tokens, ¬ t.Overflows) ∧
      ∀ x, (Document.number x).OccursIn answer →
        x.isNaN = false ∧ ∃ t ∈ (scan source).tokens, t.value = .number x := by
  constructor
  · rw [Document.IsPlain, numbered_answer h]
    refine forall₂_congr fun t ht ↦ ⟨fun hfinite hlarge ↦ ?_, fun hsmall x hx ↦ ?_⟩
    · obtain ⟨x, hx⟩ := exists_number_of_mem_scan ht hlarge.1
      exact (rounds_of_mem_scan ht hx).isFinite_iff.mp (hfinite x hx) hlarge
    · exact (rounds_of_mem_scan ht hx).isFinite_iff.mpr hsmall
  · exact (numbered_answer h).mpr fun t ht x hx ↦ ⟨(rounds_of_mem_scan ht hx).isNaN, t, ht, hx⟩

/-! ## How many digits are too many -/

/-- A statement that is a number with so many digits, all of them nines. -/
def nines (n : Nat) : String := String.ofList (List.replicate n '9' ++ [' ', ';'])

theorem digitsValue_replicate (n : Nat) :
    Number.digitsValue (List.replicate n '9') + 1 = 10 ^ n := by
  have hfold : ∀ a : Nat, (List.replicate n '9').foldl
      (fun n c ↦ 10 * n + (c.toNat - '0'.toNat)) a + 1 = (a + 1) * 10 ^ n := by
    induction n with
    | zero => intro a; simp
    | succ n ih =>
      intro a
      have hnine : '9'.toNat - '0'.toNat = 9 := by decide
      rw [List.replicate_succ, List.foldl_cons, ih, hnine, Nat.pow_succ', ← Nat.mul_assoc]
      congr 1
      omega
  simpa [Number.digitsValue] using hfold 0

theorem isDigits_nines {n : Nat} (hn : 0 < n) : IsDigits (List.replicate n '9') := by
  refine ⟨fun h ↦ hn.ne' (by simpa using h), fun c hc ↦ ?_⟩
  rw [List.eq_of_mem_replicate hc]
  decide

theorem essence_nines {n : Nat} (hn : 0 < n) : (scan (nines n)).tokens.map Token.essence
    = [(.number, String.ofList (List.replicate n '9'),
      .number (Number.ofLiteral (List.replicate n '9') [])), (.semicolon, ";", .nil)] := by
  have hend : Gives [' ', ';'] [(.semicolon, ";", .nil)] :=
    (Gives.singleton ⟨[';'], .semicolon, .nil, .symbol rfl⟩).blank (by decide)
  have hgives := hend.lexeme ⟨_, _, _, .whole (isDigits_nines hn)⟩ fun c hc ↦ by cases hc; decide
  rw [← String.toList_ofList (l := _ ++ _)] at hgives
  have hfinds := hgives.finds.2
  rw [Scan.allTokens, List.map_append] at hfinds
  exact List.append_inj_left' hfinds rfl

/-- A number of nines is still finite as long as there are no more than 308 of them. -/
theorem isPlain_nines_iff {n : Nat} (hn : 0 < n) (nesting : Nat) :
    (Service.compile nesting (nines n)).IsPlain ↔ n ≤ 308 := by
  have hvalues : (∀ t ∈ (scan (nines n)).tokens, ∀ x, t.value = .number x → x.isFinite = true) ↔
      (Number.ofLiteral (List.replicate n '9') []).isFinite = true := by
    have h := congrArg (fun es ↦ ∀ e ∈ es, ∀ x, e.2.2 = .number x → x.isFinite = true)
      (essence_nines hn)
    simpa [Token.essence] using h
  have hvalue := digitsValue_replicate n
  have hpower : ∀ {a b : Nat}, a ≤ b → 10 ^ a ≤ 10 ^ b := Nat.pow_le_pow_right (by decide)
  have hleast : 10 ^ 308 ≤ Number.overflow := by decide +kernel
  have hgreatest : Number.overflow < 10 ^ 309 := by decide +kernel
  rw [Document.IsPlain, numbered_answer (.compile nesting), hvalues,
    (Number.rounds_ofLiteral (isDigits_nines hn).2 (List.forall_mem_nil _)).isFinite_iff,
    List.append_nil, List.length_nil, Nat.pow_zero, Nat.mul_one]
  refine ⟨fun hlt ↦ Nat.not_lt.mp fun hn ↦ ?_, fun hle ↦ ?_⟩
  · have hlarge : Number.overflow < 10 ^ n := hgreatest.trans_le (hpower hn)
    rw [← hvalue, Nat.lt_succ_iff] at hlarge
    exact Nat.not_lt.mpr hlarge hlt
  · refine Nat.lt_of_succ_le (hvalue.trans_le ?_)
    exact (hpower hle).trans hleast

/-- Three hundred and eight digits are not too many. -/
theorem isPlain_answer_iff_nines : Answers (nines 308) (Service.compile 60 (nines 308)) ∧
    ∀ t ∈ (scan (nines 308)).tokens, ¬ t.Overflows :=
  have hanswer : Answers (nines 308) (Service.compile 60 (nines 308)) := .compile 60
  have hplain := (isPlain_nines_iff (by decide) 60).mpr (Nat.le_refl 308)
  ⟨hanswer, (isPlain_answer_iff hanswer).1.mp hplain⟩

/-- One more digit is one too many: an infinite value is listed with the token. -/
theorem not_isPlain_nines : ¬ (Service.compile 60 (nines 309)).IsPlain := by
  rw [isPlain_nines_iff (by decide)]
  decide

end Service

end Lox
