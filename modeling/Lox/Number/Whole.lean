import Lox.Number.Text
import Lox.Text.Blank

/-!
# Whole numbers as text

A whole number has one canonical text: its digits without zeros in front, behind a dash if it is
negative. Other texts are tolerated for the sake of whoever types them. They may have white space
around them, a plus or zeros in front, single underscores inside, and a fraction of nothing but
zeros. Such a text is simplified, and what results from that has to be canonical.

A text is read as it stands first. That is where its length counts: a number that goes on for too
long is refused even if more than its digits is wrong.
-/

namespace Lox.Number

/-- Why a text is not read as a whole number. -/
inductive WholeError where
  | malformed
  | tooLong
  deriving DecidableEq, Repr

/-- The greatest number of digits of a whole number. -/
def maxWholeDigits : Nat := 4300

/-- Splits off a dash in front. -/
def splitDash : List Char → Bool × List Char
  | '-' :: cs => (true, cs)
  | cs => (false, cs)

/-- Reads a canonical text. Zero may have a dash. -/
def readCanonical (cs : List Char) : Except WholeError Int :=
  let (negative, unsigned) := splitDash cs
  let digits := unsigned.takeWhile Char.isDigit
  if digits.head? ≠ some '0' ∧ maxWholeDigits < digits.length then
    .error .tooLong
  else if unsigned = ['0'] ∨ unsigned ≠ [] ∧ digits = unsigned ∧ digits.head? ≠ some '0' then
    .ok (if negative then -(digitsValue digits) else digitsValue digits)
  else .error .malformed

/-! ## Simplification -/

/-- Whether a number without zeros in front can start with a character. A dash behind zeros counts
as the sign of the number. -/
def startsWhole (c : Char) : Bool := c = '-' || c.isDigit && c ≠ '0'

/-- What is left of a number behind a zero or an underscore, where more of both may follow. The last
of them stays if nothing but a fraction follows. -/
def skipZeros? (previous : Char) : List Char → Option (List Char)
  | [] => some [previous]
  | c :: cs =>
    if c = '0' ∨ c = '_' then skipZeros? c cs
    else if c = '.' then some (previous :: c :: cs)
    else if startsWhole c then some (c :: cs)
    else none

/-- Removes the zeros in front of a number. A text that does not start like a number is refused. -/
def dropZeros? : List Char → Option (List Char)
  | [] => none
  | c :: cs => if c = '0' then skipZeros? c cs else if startsWhole c then some (c :: cs) else none

/-- Removes a fraction of one or more zeros. -/
def dropFraction (cs : List Char) : List Char :=
  match cs.dropWhile (· ≠ '.') with
  | '.' :: '0' :: zeros => if zeros.all (· = '0') then cs.takeWhile (· ≠ '.') else cs
  | _ => cs

/-- Removes the underscores, unless one of them is not between two other characters. -/
def dropUnderscores (cs : List Char) : List Char :=
  if cs.head? = some '_' ∨ cs.getLast? = some '_' ∨ ('_', '_') ∈ cs.zip cs.tail then cs
  else cs.filter (· ≠ '_')

/-- Simplifies a number without a plus. -/
def simplifyUnsigned? (cs : List Char) : Option (List Char) :=
  (dropZeros? cs).map fun cs ↦ dropUnderscores (dropFraction cs)

/-- Simplifies a text that is not canonical. -/
def simplify? (cs : List Char) : Option (List Char) :=
  match Text.strip Text.isWhiteSpace cs with
  | '+' :: '-' :: _ => none
  | '+' :: cs => simplifyUnsigned? cs
  | '-' :: cs => (simplifyUnsigned? cs).map ('-' :: ·)
  | cs => simplifyUnsigned? cs

example : simplify? [' ', '+', '0', '1', '_', '2', '.', '0'] = some ['1', '2'] := by decide

example : simplify? ['1', '_', '_', '2'] = some ['1', '_', '_', '2'] := by decide

/-- Reads a text that need not be canonical. -/
def readWhole (text : String) : Except WholeError Int :=
  match readCanonical text.toList with
  | .error .malformed =>
    match (simplify? text.toList).map readCanonical with
    | some (.ok n) => .ok n
    | _ => .error .malformed
  | settled => settled

/-- Tolerance does not change what a canonical text means. -/
theorem readWhole_of_readCanonical {cs : List Char} {n : Int} (h : readCanonical cs = .ok n) :
    readWhole (String.ofList cs) = .ok n := by
  simp [readWhole, h]

/-! ## Doubles -/

/-- The whole number that a double is, if it is one. -/
def wholeOf? (x : Float) : Option Int :=
  match parts x with
  | .finite negative ⟨mantissa, exponent⟩ =>
    let scale := Nat.pow 2 exponent.natAbs
    let magnitude? : Option Nat :=
      if 0 ≤ exponent then some (mantissa * scale)
      else if mantissa % scale = 0 then some (mantissa / scale)
      else none
    magnitude?.map fun n ↦ if negative then -(n : Int) else n
  | _ => none

end Lox.Number
