import Lox.Proofs.Lines.Moved
import Lox.Token.Lexer

/-!
# Lexing two texts as one

A line feed ends every piece except an open string, and belongs to none but a closed one. So if two
texts are joined by a line feed, the first one is cut as before, unless it ends in a string that is
never closed, and the second one is cut as before as well. Its tokens are further down, by as many
lines as the first text has.
-/

namespace Lox

section Lists

variable {α : Type} {p : α → Bool} {x : α}

theorem takeWhile_append_stop (hx : p x = false) (cs ds : List α) :
    (cs ++ x :: ds).takeWhile p = cs.takeWhile p := by
  induction cs with
  | nil => rw [List.nil_append, List.takeWhile_cons_of_neg (by rw [hx]; exact Bool.false_ne_true),
      List.takeWhile_nil]
  | cons c cs ih =>
    rw [List.cons_append, List.takeWhile_cons, List.takeWhile_cons, ih]

theorem dropWhile_append_stop (hx : p x = false) (cs ds : List α) :
    (cs ++ x :: ds).dropWhile p = cs.dropWhile p ++ x :: ds := by
  induction cs with
  | nil => rw [List.nil_append, List.dropWhile_cons_of_neg (by rw [hx]; exact Bool.false_ne_true),
      List.dropWhile_nil, List.nil_append]
  | cons c cs ih =>
    rw [List.cons_append, List.dropWhile_cons, List.dropWhile_cons, ih]
    split <;> rfl

theorem span_append_of_dropWhile {cs rest : List α} (h : cs.dropWhile p = x :: rest)
    (ds : List α) : (cs ++ ds).takeWhile p = cs.takeWhile p ∧
      (cs ++ ds).dropWhile p = x :: rest ++ ds := by
  induction cs with
  | nil => cases h
  | cons c cs ih =>
    rw [List.dropWhile_cons] at h
    rw [List.cons_append, List.takeWhile_cons, List.takeWhile_cons, List.dropWhile_cons]
    cases hc : p c with
    | true =>
      rw [hc, if_pos rfl] at h
      obtain ⟨htake, hdrop⟩ := ih h
      simp only [if_true]
      exact ⟨by rw [htake], hdrop⟩
    | false =>
      rw [hc, if_neg Bool.false_ne_true] at h
      cases h
      exact ⟨rfl, rfl⟩

end Lists

namespace Piece

/-- Whether a piece is a string that is never closed. -/
def isOpen (p : Piece) : Prop := p.role = .fault .unterminatedString

variable (c : Char) (cs ds : List Char)

/-! ## One piece -/

theorem text_number : (number c cs).1.text ++ (number c cs).2 = c :: cs := by
  have hcs : cs.takeWhile Char.isDigit ++ cs.dropWhile Char.isDigit = cs :=
    List.takeWhile_append_dropWhile
  simp only [number]
  split
  · rename_i d rest h
    split
    · have hrest : rest.takeWhile Char.isDigit ++ rest.dropWhile Char.isDigit = rest :=
        List.takeWhile_append_dropWhile
      rw [h] at hcs
      simp [hrest, hcs]
    · rw [h] at hcs
      simp [hcs]
  · simp [hcs]

theorem text_single : (single c cs).1.text ++ (single c cs).2 = c :: cs := by
  unfold single
  split <;> rfl

theorem text_symbol : (symbol c cs).1.text ++ (symbol c cs).2 = c :: cs := by
  cases cs with
  | nil => exact text_single c []
  | cons d cs =>
    rw [symbol]
    split
    · rfl
    · exact text_single c (d :: cs)

theorem text_string : (string cs).1.text ++ (string cs).2 = '"' :: cs := by
  have hcs : cs.takeWhile (fun c ↦ decide (c ≠ '"'))
      ++ cs.dropWhile (fun c ↦ decide (c ≠ '"')) = cs := List.takeWhile_append_dropWhile
  simp only [string]
  split
  · rename_i h
    rw [h, List.append_nil] at hcs
    rw [hcs, List.append_nil]
  · rename_i h
    rw [h] at hcs
    rw [List.append_assoc, List.singleton_append, List.cons_append, hcs]

/-- Nothing is lost at a cut. -/
theorem text_first : (first c cs).1.text ++ (first c cs).2 = c :: cs := by
  unfold first
  split
  · rfl
  split
  · rename_i h
    obtain ⟨rfl, -⟩ := h
    exact congrArg ('/' :: ·) List.takeWhile_append_dropWhile
  split
  · rename_i h
    subst h
    exact text_string cs
  split
  · exact text_number c cs
  split
  · exact congrArg (c :: ·) List.takeWhile_append_dropWhile
  · exact text_symbol c cs

theorem number_append :
    number c (cs ++ '\n' :: ds) = ((number c cs).1, (number c cs).2 ++ '\n' :: ds) := by
  have hstop : Char.isDigit '\n' = false := by decide
  simp only [number, takeWhile_append_stop hstop, dropWhile_append_stop hstop, List.isEmpty_nil,
    if_true]
  generalize cs.dropWhile Char.isDigit = tail
  by_cases hpoint : ∃ rest, tail = '.' :: rest
  · obtain ⟨rest, rfl⟩ := hpoint
    cases rest with
    | nil => rfl
    | cons d rest =>
      simp only [List.cons_append, takeWhile_append_stop hstop, dropWhile_append_stop hstop]
      split <;> rfl
  · -- Without a point the number ends here.
    split
    · rename_i d rest h
      cases tail with
      | nil => cases h
      | cons x tail => exact absurd ⟨tail, congrArg (· :: tail) (List.cons.inj h).1⟩ hpoint
    · split
      · exact absurd ⟨_, rfl⟩ hpoint
      · rfl

theorem single_append :
    single c (cs ++ '\n' :: ds) = ((single c cs).1, (single c cs).2 ++ '\n' :: ds) := by
  unfold single
  split <;> rfl

theorem symbol_append :
    symbol c (cs ++ '\n' :: ds) = ((symbol c cs).1, (symbol c cs).2 ++ '\n' :: ds) := by
  cases cs with
  | nil =>
    -- No symbol of two characters ends in a line feed.
    have hpair : Kind.ofSymbolPair? c '\n' = none := by
      unfold Kind.ofSymbolPair?
      split
      all_goals first | rfl | contradiction
    rw [List.nil_append, symbol.eq_2, hpair]
    exact single_append c [] ds
  | cons d cs =>
    rw [List.cons_append, symbol, symbol]
    split
    · rfl
    · exact single_append c (d :: cs) ds

theorem string_append (h : ¬ (string cs).1.isOpen) :
    string (cs ++ '\n' :: ds) = ((string cs).1, (string cs).2 ++ '\n' :: ds) := by
  cases hdrop : cs.dropWhile (fun c ↦ decide (c ≠ '"')) with
  | nil =>
    refine absurd ?_ h
    simp only [string, hdrop, isOpen]
  | cons close rest =>
    obtain ⟨htake', hdrop'⟩ := span_append_of_dropWhile hdrop ('\n' :: ds)
    simp only [string, hdrop, hdrop', htake', List.cons_append]

/-- A line feed ends every piece that is not an open string. -/
theorem first_append (h : ¬ (first c cs).1.isOpen) :
    first c (cs ++ '\n' :: ds) = ((first c cs).1, (first c cs).2 ++ '\n' :: ds) := by
  -- For a comment one character ahead is looked at, and a line feed does not begin one.
  have hhead : (cs ++ '\n' :: ds).head? = some '/' ↔ cs.head? = some '/' := by
    cases cs with
    | nil => simp
    | cons d cs => rfl
  have hend : decide ('\n' ≠ '\n') = false := by decide
  have hword : continuesWord '\n' = false := by decide
  unfold first at h ⊢
  simp only [hhead]
  split
  · rfl
  split
  · simp only [comment, takeWhile_append_stop (p := fun c ↦ decide (c ≠ '\n')) hend,
      dropWhile_append_stop (p := fun c ↦ decide (c ≠ '\n')) hend]
  split
  · rename_i hspace hcomment hquote
    rw [if_neg hspace, if_neg hcomment, if_pos hquote] at h
    exact string_append cs ds h
  split
  · exact number_append c cs ds
  split
  · simp only [word, takeWhile_append_stop hword, dropWhile_append_stop hword]
  · exact symbol_append c cs ds

/-! ## All pieces -/

theorem cutOnto_append (read before : List Piece) :
    cutOnto cs (read ++ before) = before.reverse ++ cutOnto cs read := by
  fun_induction cutOnto cs read with
  | case1 read => rw [cutOnto, List.reverse_append]
  | case2 read c cs ih => rw [cutOnto, ← List.cons_append, ih]

@[simp] theorem cut_nil : cut [] = [] := by rw [cut, cutOnto, List.reverse_nil]

theorem cut_cons : cut (c :: cs) = (first c cs).1 :: cut (first c cs).2 := by
  rw [cut, cutOnto, ← List.nil_append [_], cutOnto_append, cut, List.reverse_singleton,
    List.singleton_append]

/-- If no string is left open, then a line feed is a piece of its own and what follows it is cut
as if it stood alone. -/
theorem cut_append : ∀ cs : List Char, (∀ p ∈ cut cs, ¬ p.isOpen) →
    cut (cs ++ '\n' :: ds) = cut cs ++ ⟨.blank, ['\n']⟩ :: cut ds
  | [], _ => by
    rw [List.nil_append, cut_cons, cut_nil, List.nil_append]
    rfl
  | c :: cs, h => by
    rw [cut_cons, List.forall_mem_cons] at h
    rw [List.cons_append, cut_cons, first_append c cs ds h.1, cut_append _ h.2, cut_cons,
      List.cons_append]
termination_by cs => cs.length
decreasing_by simpa using Nat.lt_succ_of_le (length_snd_first_le _ _)

theorem flatMap_text_cut : ∀ cs : List Char, (cut cs).flatMap text = cs
  | [] => by rw [cut_nil, List.flatMap_nil]
  | c :: cs => by
    rw [cut_cons, List.flatMap_cons, flatMap_text_cut (first c cs).2, text_first]
termination_by cs => cs.length
decreasing_by simpa using Nat.lt_succ_of_le (length_snd_first_le _ _)

end Piece

namespace Scan

/-- A walk that comes after another one: all lines are further down by `k`, and what the other one
found lies below. -/
def Walk.after (k : Int) (tokens : List Token) (errors : List (Int × LexicalError)) (w : Walk) :
    Walk :=
  ⟨w.line + k, w.tokens.map (Token.moved (· + k)) ++ tokens,
    w.errors.map (fun e ↦ (e.1 + k, e.2)) ++ errors⟩

section Walks

variable (k : Int) (tokens : List Token) (errors : List (Int × LexicalError))

theorem Walk.step_after (w : Walk) (p : Piece) :
    (w.after k tokens errors).step p = (w.step p).after k tokens errors := by
  have hline : w.line + k + p.text.count '\n' = w.line + p.text.count '\n' + k := by omega
  unfold Walk.step Walk.after
  cases p.role with
  | _ => simp only [hline, List.map_cons, List.cons_append, Token.moved]

theorem foldl_after (pieces : List Piece) (w : Walk) :
    pieces.foldl Walk.step (w.after k tokens errors)
      = (pieces.foldl Walk.step w).after k tokens errors := by
  induction pieces generalizing w with
  | nil => rfl
  | cons p pieces ih => rw [List.foldl_cons, Walk.step_after, ih, List.foldl_cons]

end Walks

theorem Walk.line_step (w : Walk) (p : Piece) : (w.step p).line = w.line + p.text.count '\n' := by
  unfold Walk.step
  cases p.role <;> rfl

theorem line_foldl (pieces : List Piece) (w : Walk) :
    (pieces.foldl Walk.step w).line = w.line + (pieces.flatMap Piece.text).count '\n' := by
  induction pieces generalizing w with
  | nil => simp
  | cons p pieces ih =>
    rw [List.foldl_cons, ih, Walk.line_step, List.flatMap_cons, List.count_append]
    omega

/-- A walk without complaints has met no faults. -/
theorem sound_of_errors_foldl (pieces : List Piece) (w : Walk)
    (h : (pieces.foldl Walk.step w).errors = []) :
    w.errors = [] ∧ ∀ p ∈ pieces, ∀ error, p.role ≠ .fault error := by
  induction pieces generalizing w with
  | nil => exact ⟨h, List.forall_mem_nil _⟩
  | cons p pieces ih =>
    obtain ⟨hstep, hrest⟩ := ih (w.step p) h
    unfold Walk.step at hstep
    rw [List.forall_mem_cons]
    cases hrole : p.role with
    | fault error => rw [hrole] at hstep; cases hstep
    | _ =>
      rw [hrole] at hstep
      exact ⟨hstep, fun _ ↦ Piece.Role.noConfusion, hrest⟩

end Scan

/-- How many lines a source text takes. -/
def height (source : String) : Int := 1 + source.toList.count '\n'

namespace Scan

/-- The walk over a whole source text. -/
def walk (source : String) : Walk := (Piece.cut source.toList).foldl Walk.step ⟨1, [], []⟩

theorem scan_eq_walk (source : String) :
    scan source = ⟨(walk source).tokens.reverse, ⟨.eof, "", .nil, (walk source).line⟩,
      (walk source).errors.reverse⟩ := rfl

theorem line_walk (source : String) : (walk source).line = height source := by
  rw [walk, line_foldl, Piece.flatMap_text_cut, height]

theorem walk_joined {first : String} (hfirst : (walk first).errors = []) (second : String) :
    walk (first ++ "\n" ++ second)
      = (walk second).after (height first) (walk first).tokens [] := by
  obtain ⟨-, hsound⟩ := sound_of_errors_foldl _ _ hfirst
  have hcut := Piece.cut_append second.toList first.toList fun p hp ↦ hsound p hp _
  -- The line feed between the texts leaves the walk where a fresh one would be, further down.
  have hstep : (walk first).step ⟨.blank, ['\n']⟩
      = Walk.after (height first) (walk first).tokens [] ⟨1, [], []⟩ := by
    calc (walk first).step ⟨.blank, ['\n']⟩
        = ⟨(walk first).line + 1, (walk first).tokens, (walk first).errors⟩ := rfl
      _ = Walk.after (height first) (walk first).tokens [] ⟨1, [], []⟩ := by
        rw [hfirst, line_walk, Int.add_comm]
        rfl
  rw [walk, String.toList_append, String.toList_append, List.append_assoc]
  refine (congrArg (List.foldl _ _) hcut).trans ?_
  rw [List.foldl_append, List.foldl_cons, ← walk, hstep, foldl_after, ← walk]

end Scan

theorem finish_scan (source : String) : (scan source).finish = ⟨.eof, "", .nil, height source⟩ := by
  rw [Scan.scan_eq_walk, Scan.line_walk]

/-- A text without lexical errors that is followed by another one on the next line gives its
tokens, and the other one gives its own, further down. -/
theorem scan_joined {first : String} (hfirst : (scan first).errors = []) (second : String) :
    scan (first ++ "\n" ++ second)
      = ⟨(scan first).tokens ++ (scan second).tokens.map (Token.moved (· + height first)),
        (scan second).finish.moved (· + height first),
        (scan second).errors.map fun e ↦ (e.1 + height first, e.2)⟩ := by
  rw [Scan.scan_eq_walk, Scan.walk_joined (List.reverse_eq_nil_iff.mp hfirst) second]
  simp only [Scan.Walk.after, List.append_nil, List.reverse_append, List.map_reverse,
    Scan.scan_eq_walk, Token.moved]

end Lox
