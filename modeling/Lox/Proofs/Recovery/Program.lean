import Lox.Proofs.Lines.Parsing
import Lox.Proofs.Syntax.Acceptance.Program
import Lox.Proofs.Syntax.Nesting

/-!
# A declaration that is given up

A program goes on behind a declaration that is given up. What comes before has been read by then,
and what comes behind is parsed as if it were a program of its own: nothing that the parser keeps
makes a difference to it. There are the complaints so far, which come in front of all that are made
later, and there is the bound on the rounds of loops, which is never reached.

So all that has to be known about a declaration that is given up is where the parser goes on, and
what has been complained about.
-/

namespace Lox

namespace Parser

variable {α : Type} {nesting : Nat} {last : Token}

/-! ## Declarations in a loop -/

/-- What a loop has read before comes in front of what it reads. -/
theorem many_read {stops : Kind → Bool} {item : Parse α} : ∀ bound read s,
    many stops item bound read s = carried id id (read.reverse ++ ·) (many stops item bound [] s)
  | 0, _, _ => rfl
  | bound + 1, read, s => by
    have hcheck : check (fun k ↦ !stops k) s = .ok (s.rest.head?.any fun t ↦ !stops t.kind) s := rfl
    rw [many, many, bind_of_ok hcheck, bind_of_ok hcheck]
    cases s.rest.head?.any fun t ↦ !stops t.kind with
    | false => exact congrArg (fun as ↦ EStateM.Result.ok as s) (List.append_nil _).symm
    | true =>
      cases hitem : item s with
      | error abort s₁ =>
        rw [if_pos rfl, if_pos rfl, bind_of_error hitem, bind_of_error hitem]
        rfl
      | ok a s₁ =>
        rw [if_pos rfl, if_pos rfl, bind_of_ok hitem, bind_of_ok hitem, many_read bound (a :: read),
          many_read bound [a]]
        cases many stops item bound [] s₁ with
        | error abort s₂ => rfl
        | ok as s₂ => exact congrArg (fun as ↦ EStateM.Result.ok as s₂) (by simp)

/-- The first item of a row that a loop has read. -/
theorem many_eq_ok {item : Parse α} {bound : Nat} {s s' : State} {read : List α}
    (hs : s.rest ≠ []) (h : many (fun _ ↦ false) item (bound + 1) [] s = .ok read s') :
    ∃ a s₁ new, item s = .ok a s₁ ∧ many (fun _ ↦ false) item bound [] s₁ = .ok new s' ∧
      read = a :: new := by
  obtain ⟨⟨⟩ | ⟨t, rest⟩, functions, errors⟩ := s
  · exact absurd rfl hs
  obtain ⟨more, s₀, hcheck, h⟩ := bind_eq_ok h
  cases hcheck
  obtain ⟨a, s₁, hitem, h⟩ := bind_eq_ok h
  rw [many_read] at h
  cases hrest : many (fun _ ↦ false) item bound [] s₁ with
  | error abort s₂ => rw [hrest] at h; cases h
  | ok new s₂ =>
    rw [hrest] at h
    cases h
    exact ⟨a, s₁, new, hitem, hrest, rfl⟩

/-- A declaration that is given up has come to a fault, from which the parser recovers. -/
theorem declaration_eq_none {input : Input} {s s₁ : State}
    (h : declaration input nesting s = .ok none s₁) :
    ∃ n s₂, nesting = n + 1 ∧ attempt input n s = .error .fault s₂ ∧
      s₁ = { s₂ with rest := resume s₂.rest } := by
  cases nesting with
  | zero => cases h
  | succ n =>
    rw [declaration_eq_recovering, recovering] at h
    cases hattempt : attempt input n s with
    | ok st s₂ => rw [hattempt] at h; cases h
    | error abort s₂ =>
      rw [hattempt] at h
      cases abort <;> cases h
      exact ⟨n, s₂, rfl, hattempt, rfl⟩

/-! ## What is left of a program -/

/-- The declarations of a program, each of them perhaps given up. -/
def declarations (nesting : Nat) (tokens : List Token) (finish : Token) :
    EStateM.Result Abort State (List (Option Stmt)) :=
  many (fun _ ↦ false) (declaration ⟨finish, tokens.length + 1⟩ nesting) (tokens.length + 1) []
    ⟨tokens, 0, []⟩

/-- What is left of a program is parsed like a program of its own, whatever has been read and
complained about before. -/
theorem many_rest (hlast : last.kind = .eof) (tokens : List Token) {size bound : Nat}
    (hsize : tokens.length < size) (hbound : tokens.length < bound) (read : List (Option Stmt))
    (complaints : List (Token × SyntaxError)) :
    many (fun _ ↦ false) (declaration ⟨last, size⟩ nesting) bound read ⟨tokens, 0, complaints⟩
      = carried (State.after complaints) id (read.reverse ++ ·)
        (declarations nesting tokens last) := by
  have hroom : Roomier .exhausted ⟨last, tokens.length + 1⟩ ⟨last, size⟩ := ⟨rfl, .of_le hsize⟩
  have hextended : ExtendsStatements .exhausted ⟨last, tokens.length + 1⟩ ⟨last, size⟩
      nesting nesting := .of_within Abort.noConfusion hroom nesting nesting .refl
  have hmany : Extended .exhausted
      (many (fun _ ↦ false) (declaration ⟨last, tokens.length + 1⟩ nesting) (tokens.length + 1) [])
      (many (fun _ ↦ false) (declaration ⟨last, size⟩ nesting) bound []) :=
    .many hextended.declaration (tokens.length + 1) bound (.of_le hbound) []
  have hadvances : AdvancesStatements ⟨last, tokens.length + 1⟩ nesting := .of_nesting hlast nesting
  rcases hmany.after complaints ⟨tokens, 0, []⟩ with ⟨s', hexhausted⟩ | hsame
  · -- The loop makes no more rounds than there are tokens.
    have hprogress : Progress last (tokens.length + 1) 0 (many (fun _ ↦ false)
        (declaration ⟨last, tokens.length + 1⟩ nesting) (tokens.length + 1) []) :=
      .many hadvances.declaration (tokens.length + 1) (Nat.le_refl _) []
    have hstopped := Ends.of_error (hprogress ⟨tokens, 0, []⟩ (Nat.lt_succ_self _)) hexhausted
    exact absurd rfl hstopped.2.1
  · have hstart : State.after complaints ⟨tokens, 0, []⟩ = ⟨tokens, 0, complaints⟩ := rfl
    rw [hstart] at hsame
    rw [many_read, hsame, declarations]
    cases many (fun _ ↦ false) (declaration ⟨last, tokens.length + 1⟩ nesting) (tokens.length + 1)
      [] ⟨tokens, 0, []⟩ <;> rfl

/-! ## Whole programs -/

/-- What becomes of the declarations of a program in the end. -/
def outcome : EStateM.Result Abort State (List (Option Stmt)) → Parsed (List Stmt)
  | .ok read s => ⟨.ok (read.filterMap id), s.errors.reverse⟩
  | .error abort s => ⟨.error abort, s.errors.reverse⟩

theorem parseProgram_eq_outcome (nesting : Nat) (tokens : List Token) (finish : Token) :
    parseProgram nesting tokens finish = outcome (declarations nesting tokens finish) := by
  rw [parseProgram, run, program, declarations]
  cases h : many (fun _ ↦ false) (declaration ⟨finish, tokens.length + 1⟩ nesting)
      (tokens.length + 1) [] ⟨tokens, 0, []⟩ with
  | ok read s =>
    rw [bind_of_ok h]
    rfl
  | error abort s =>
    rw [bind_of_error h]
    rfl

theorem outcome_carried (complaints : List (Token × SyntaxError)) (read : List (Option Stmt))
    (r : EStateM.Result Abort State (List (Option Stmt))) :
    outcome (carried (State.after complaints) id (read ++ ·) r)
      = ⟨(outcome r).result.map (read.filterMap id ++ ·),
        complaints.reverse ++ (outcome r).errors⟩ := by
  cases r with
  | ok new s =>
    rw [carried, outcome, State.after, List.filterMap_append, List.reverse_append]
    rfl
  | error abort s =>
    rw [carried, outcome, State.after, List.reverse_append]
    rfl

/-- A program that is parsed without complaints, and behind it a declaration that is given up: the
program is kept, and then what is left is parsed as a program. -/
theorem parseProgram_givenUp {first : Token} (hfirst : first.kind = .eof) (hlast : last.kind = .eof)
    {tokens rest left : List Token} {program : List Stmt}
    {complaints : List (Token × SyntaxError)}
    (htokens : parseProgram nesting tokens first = ⟨.ok program, []⟩) (helse : avoids .else rest)
    (hleft : left.length < rest.length)
    (hgivenUp : ∀ size, rest.length < size →
      declaration ⟨last, size⟩ nesting ⟨rest, 0, []⟩ = .ok none ⟨left, 0, complaints⟩) :
    parseProgram nesting (tokens ++ rest) last
      = ⟨(parseProgram nesting left last).result.map (program ++ ·),
        complaints.reverse ++ (parseProgram nesting left last).errors⟩ := by
  obtain ⟨read, hmany, hsome, rfl⟩ := declarations_of_parseProgram hfirst htokens
  have hgrip : (⟨id, rest⟩ : Sequel).grip = .closed := Sequel.grip_eq_closed.mpr helse
  obtain ⟨size, hsize⟩ : ∃ size, size = (tokens ++ rest).length + 1 := ⟨_, rfl⟩
  have hlength : size = tokens.length + rest.length + 1 := by rw [hsize, List.length_append]
  obtain ⟨hle, hbehind⟩ := declarations_behind hgrip ⟨last, size⟩ (by simp only; omega) hmany hsome
  -- One round for each declaration of the program, one for that which is given up, and the others.
  obtain ⟨bound, hbound⟩ : ∃ bound, size = bound + 1 + read.length :=
    ⟨tokens.length + rest.length - read.length, by omega⟩
  have hread : read.map (Option.map (Stmt.moved id)) = read := by
    rw [funext Stmt.moved_id]
    exact (List.map_congr_left fun _ _ ↦ Option.map_id').trans (List.map_id read)
  have htokens' : tokens.map (Token.moved id) = tokens := List.map_id tokens
  have hone : many (fun _ ↦ false) (declaration ⟨last, size⟩ nesting) (bound + 1) read.reverse
      ⟨rest, 0, []⟩ = many (fun _ ↦ false) (declaration ⟨last, size⟩ nesting) bound
        (none :: read.reverse) ⟨left, 0, complaints⟩ := by
    obtain ⟨t, rest, rfl⟩ := List.exists_cons_of_length_pos (Nat.zero_lt_of_lt hleft)
    have hcheck : check (fun _ ↦ true) ⟨t :: rest, 0, []⟩ = .ok true ⟨t :: rest, 0, []⟩ := rfl
    exact (bind_of_ok hcheck).trans (bind_of_ok (hgivenUp size (by omega)))
  have hwhole : declarations nesting (tokens ++ rest) last
      = carried (State.after complaints) id ((read ++ [none]) ++ ·)
        (declarations nesting left last) := by
    calc declarations nesting (tokens ++ rest) last
        = many (fun _ ↦ false) (declaration ⟨last, size⟩ nesting) (bound + 1 + read.length) []
            ⟨tokens.map (Token.moved id) ++ rest, 0, []⟩ := by
          rw [declarations, ← hsize, htokens', ← hbound]
      _ = many (fun _ ↦ false) (declaration ⟨last, size⟩ nesting) (bound + 1) read.reverse
            ⟨rest, 0, []⟩ := by
          rw [hbehind, hread, List.append_nil]
      _ = many (fun _ ↦ false) (declaration ⟨last, size⟩ nesting) bound (none :: read.reverse)
            ⟨left, 0, complaints⟩ := hone
      _ = _ := by
          rw [many_rest hlast left (by omega) (by omega), List.reverse_cons, List.reverse_reverse]
  rw [parseProgram_eq_outcome, hwhole, outcome_carried, ← parseProgram_eq_outcome,
    List.filterMap_append]
  simp

end Parser

end Lox
