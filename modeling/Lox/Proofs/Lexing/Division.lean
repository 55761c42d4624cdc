import Lox.Proofs.Lexing.Longest

/-!
# The division of a source text

A source text is divided into pieces by taking, again and again, the piece that comes first. There
is one way only to divide a text, since each piece is settled by the text from there on. So a
division says all there is to say about the tokens and complaints of a text, once it is known on
which lines they are: a token is on the line on which its lexeme ends, an unexpected character is on
the line on which it stands, and a string that is never closed is complained about on the last line.
-/

namespace Lox

/-- A text is divided into pieces, each of them the one to be taken from the text behind the pieces
before it. -/
inductive Divided : List Char → List Piece → Prop
  | nil : Divided [] []
  | cons {p : Piece} {rest : List Char} {pieces : List Piece} :
      p.Precedes rest → Divided rest pieces → Divided (p.text ++ rest) (p :: pieces)

/-- The line on which a text ends. -/
def lineAfter (cs : List Char) : Int := 1 + cs.count '\n'

/-- The pieces of a row, each with the text in front of it. -/
def placed (before : List Char) : List Piece → List (List Char × Piece)
  | [] => []
  | p :: pieces => (before, p) :: placed (before ++ p.text) pieces

namespace Piece

/-- The token of a piece that has `before` in front of it. -/
def token? (before : List Char) (p : Piece) : Option Token :=
  match p.role with
  | .lexeme kind value =>
    some ⟨kind, String.ofList p.text, value, lineAfter (before ++ p.text)⟩
  | _ => none

/-- The complaint about a piece that has `before` in front of it. -/
def complaint? (source before : List Char) (p : Piece) : Option (Int × String) :=
  match p.role with
  | .fault .unexpectedCharacter => some (lineAfter before, "Unexpected character.")
  | .fault .unterminatedString => some (lineAfter source, "Unterminated string.")
  | _ => none

theorem Precedes.text_ne_nil {p : Piece} {rest : List Char} (h : p.Precedes rest) :
    p.text ≠ [] := by
  cases h with
  | lexeme hlexeme =>
    cases hlexeme with
    | reserved hword => cases hword; exact List.cons_ne_nil _ _
    | identifier hword => cases hword; exact List.cons_ne_nil _ _
    | whole hdigits => exact hdigits.1
    | fraction => exact List.append_ne_nil_of_right_ne_nil _ (List.cons_ne_nil _ _)
    | _ => exact List.cons_ne_nil _ _
  | _ => exact List.cons_ne_nil _ _

/-- A string that is never closed takes all that is left. -/
theorem Precedes.eq_nil {p : Piece} {rest : List Char} (h : p.Precedes rest)
    (hrole : p.role = .fault .unterminatedString) : rest = [] := by
  cases h <;> cases hrole
  rfl

/-- An unexpected character is no line feed. -/
theorem Precedes.count_eq_zero {p : Piece} {rest : List Char} (h : p.Precedes rest)
    (hrole : p.role = .fault .unexpectedCharacter) : p.text.count '\n' = 0 := by
  cases h <;> cases hrole
  rename_i hblank _ _
  refine List.count_eq_zero.mpr fun hmem ↦ hblank ?_
  rw [← List.mem_singleton.mp hmem]
  decide

end Piece

/-! ## There is one division -/

theorem Divided.eq_cut {cs : List Char} {pieces : List Piece} (h : Divided cs pieces) :
    pieces = Piece.cut cs := by
  induction h with
  | nil => rw [Piece.cut_nil]
  | @cons p rest pieces hp _ ih =>
    obtain ⟨c, cs, hcs⟩ : ∃ c cs, p.text ++ rest = c :: cs :=
      List.exists_cons_of_ne_nil (List.append_ne_nil_of_left_ne_nil hp.text_ne_nil _)
    rw [hcs, Piece.cut_cons, hp.first_eq hcs, ih]

theorem divided_cut : ∀ cs : List Char, Divided cs (Piece.cut cs)
  | [] => by
    rw [Piece.cut_nil]
    exact .nil
  | c :: cs => by
    rw [Piece.cut_cons]
    have h := Divided.cons (Piece.precedes_first c cs) (divided_cut (Piece.first c cs).2)
    rwa [Piece.text_first] at h
termination_by cs => cs.length
decreasing_by simpa using Nat.lt_succ_of_le (Piece.length_snd_first_le _ _)

theorem divided_iff {cs : List Char} {pieces : List Piece} :
    Divided cs pieces ↔ pieces = Piece.cut cs :=
  ⟨Divided.eq_cut, fun h ↦ h ▸ divided_cut cs⟩

/-- Only the last piece can be a string that is never closed. -/
theorem Divided.closed {cs : List Char} {pieces : List Piece} (h : Divided cs pieces) :
    ∀ p ∈ pieces.dropLast, p.role ≠ .fault .unterminatedString := by
  induction h with
  | nil => exact List.forall_mem_nil _
  | @cons p rest pieces hp hrest ih =>
    cases hrest with
    | nil => exact List.forall_mem_nil _
    | @cons q tail pieces hq hrest =>
      rw [List.dropLast_cons_cons, List.forall_mem_cons]
      -- Such a string leaves nothing, but there is another piece.
      exact ⟨fun hrole ↦ hq.text_ne_nil (List.append_eq_nil_iff.mp (hp.eq_nil hrole)).1, ih⟩

/-! ## Lines -/

theorem lineAfter_append (before cs : List Char) :
    lineAfter (before ++ cs) = lineAfter before + cs.count '\n' := by
  rw [lineAfter, lineAfter, List.count_append]
  omega

theorem reverse_filterMap_cons {α β : Type} (f : α → Option β) (a : α) (as : List α) :
    ((a :: as).filterMap f).reverse = (as.filterMap f).reverse ++ (f a).toList := by
  rw [List.filterMap_cons]
  cases f a with
  | none => exact (List.append_nil _).symm
  | some b => exact List.reverse_cons

namespace Scan

/-- The complaints of a walk, in words. -/
def Walk.complaints (w : Walk) : List (Int × String) := w.errors.map fun e ↦ (e.1, e.2.message)

/-- A step of a walk finds what the piece says. -/
theorem Walk.step_of_precedes {p : Piece} {before rest : List Char} {w : Walk}
    (hp : p.Precedes rest) (hline : w.line = lineAfter before) :
    (w.step p).tokens = (p.token? before).toList ++ w.tokens ∧
    (w.step p).complaints
      = (p.complaint? (before ++ (p.text ++ rest)) before).toList ++ w.complaints := by
  have hend : w.line + p.text.count '\n' = lineAfter (before ++ p.text) := by
    rw [hline, lineAfter_append]
  unfold Walk.step Piece.token? Piece.complaint? Walk.complaints
  cases hrole : p.role with
  | blank => exact ⟨rfl, rfl⟩
  | lexeme kind value => exact ⟨by simp only [hend]; rfl, rfl⟩
  | fault error =>
    refine ⟨rfl, ?_⟩
    cases error with
    | unexpectedCharacter =>
      rw [hp.count_eq_zero hrole, hline]
      simp [LexicalError.message]
    | unterminatedString =>
      rw [hp.eq_nil hrole, List.append_nil, ← hend]
      rfl

/-- A walk finds what the pieces say, in reverse. -/
theorem Walk.foldl_of_divided {cs : List Char} {pieces : List Piece} (h : Divided cs pieces)
    {before : List Char} {w : Walk} (hline : w.line = lineAfter before) :
    (pieces.foldl Walk.step w).tokens
      = ((placed before pieces).filterMap fun p ↦ p.2.token? p.1).reverse ++ w.tokens ∧
    (pieces.foldl Walk.step w).complaints
      = ((placed before pieces).filterMap fun p ↦ p.2.complaint? (before ++ cs) p.1).reverse
        ++ w.complaints := by
  induction h generalizing before w with
  | nil => exact ⟨rfl, rfl⟩
  | @cons p rest pieces hp _ ih =>
    have hnext : (w.step p).line = lineAfter (before ++ p.text) := by
      rw [Walk.line_step, hline, lineAfter_append]
    obtain ⟨htokens, hcomplaints⟩ := ih hnext
    obtain ⟨htoken, hcomplaint⟩ := Walk.step_of_precedes hp hline
    rw [List.append_assoc] at hcomplaints
    rw [List.foldl_cons, placed, reverse_filterMap_cons, reverse_filterMap_cons, htokens,
      hcomplaints, htoken, hcomplaint, List.append_assoc, List.append_assoc]
    exact ⟨rfl, rfl⟩

end Scan

/-- Lexing is the maximal munch, with exact positions. There is exactly one way to divide a source
text into pieces, each of which is a blank, a comment, the longest lexeme that begins there, a
character that begins none, or, at the very end, a string that is never closed. The tokens are the
lexemes in order, each on the line on which it ends, and then the end of the input on the last line.
The complaints are, in order, one about each unexpected character, on the line on which it stands,
and one about a string that is never closed, on the last line. -/
theorem scan_takes_longest (source : String) : ∃ pieces,
    (∀ other, Divided source.toList other ↔ other = pieces) ∧
    (∀ p ∈ pieces.dropLast, p.role ≠ .fault .unterminatedString) ∧
    (scan source).allTokens = (placed [] pieces).filterMap (fun p ↦ p.2.token? p.1)
      ++ [⟨.eof, "", .nil, lineAfter source.toList⟩] ∧
    (scan source).errors.map (fun e ↦ (e.1, e.2.message))
      = (placed [] pieces).filterMap fun p ↦ p.2.complaint? source.toList p.1 := by
  have hdivided := divided_cut source.toList
  have hstart : (⟨1, [], []⟩ : Scan.Walk).line = lineAfter [] := rfl
  obtain ⟨htokens, hcomplaints⟩ := Scan.Walk.foldl_of_divided hdivided hstart
  refine ⟨Piece.cut source.toList, fun other ↦ divided_iff, hdivided.closed, ?_, ?_⟩
  · rw [Scan.allTokens, finish_scan, Scan.scan_eq_walk, Scan.walk, htokens, List.append_nil,
      List.reverse_reverse]
    rfl
  · rw [Scan.scan_eq_walk, Scan.walk, List.map_reverse]
    refine (congrArg List.reverse hcomplaints).trans ?_
    rw [Scan.Walk.complaints, List.map_nil, List.append_nil, List.reverse_reverse, List.nil_append]

end Lox
