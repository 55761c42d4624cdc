/-!
# Blank characters

Two notions of white space. The narrower one is the Unicode property of that name. The wider one has
four more characters, the separators of files, groups, records and units, which separate words like
the rest by their bidirectional class. The blanks between the tokens of a program are fewer, and are
the lexer's own concern.
-/

namespace Lox.Text

/-- The characters with the Unicode property of white space, as ranges of code points. -/
def whiteSpaceRanges : List (Nat × Nat) :=
  [(0x09, 0x0D), (0x20, 0x20), (0x85, 0x85), (0xA0, 0xA0), (0x1680, 0x1680), (0x2000, 0x200A),
    (0x2028, 0x2029), (0x202F, 0x202F), (0x205F, 0x205F), (0x3000, 0x3000)]

def isWhiteSpace (c : Char) : Bool :=
  whiteSpaceRanges.any fun r ↦ decide (r.1 ≤ c.toNat ∧ c.toNat ≤ r.2)

/-- Whether a character is white space or a separator of information. -/
def isBlank (c : Char) : Bool := isWhiteSpace c || decide (0x1C ≤ c.toNat ∧ c.toNat ≤ 0x1F)

/-- Removes the characters at both ends that satisfy `p`. -/
def strip (p : Char → Bool) (cs : List Char) : List Char :=
  ((cs.dropWhile p).reverse.dropWhile p).reverse

/-- Removes the blank characters at both ends. -/
def trim (text : String) : String := String.ofList (strip isBlank text.toList)

theorem isWhiteSpace_of_isWhitespace {c : Char} (h : c.isWhitespace = true) :
    isWhiteSpace c = true := by
  simp only [Char.isWhitespace, Bool.or_eq_true, decide_eq_true_eq] at h
  rcases h with ((rfl | rfl) | rfl) | rfl <;> decide

theorem isBlank_of_isWhiteSpace {c : Char} (h : isWhiteSpace c = true) : isBlank c = true := by
  simp [isBlank, h]

example : (whiteSpaceRanges.map fun r ↦ r.2 - r.1 + 1).sum = 25 := by decide

end Lox.Text
