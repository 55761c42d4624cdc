import Lox.Number.Shortest

/-!
# Numbers as text

The two ways the language writes a number differ only in whether a whole number keeps a fraction,
so both are values of one record. Reading goes the other way: a decimal literal is rounded once to
the nearest double.
-/

namespace Lox.Number

/-- The decisions of a number format. The leading digit of the value has weight `10 ^ e`. -/
structure Layout where
  /-- The least `e` written without an exponent. -/
  positionalFrom : Int
  /-- The least `e` above `positionalFrom` that is written with an exponent again. -/
  positionalBelow : Int
  /-- Whether a whole number in positional notation is followed by `.0`. -/
  wholeFraction : Bool
  /-- The least number of exponent digits. -/
  exponentDigits : Nat

/-- How a number is shown next to the tokens of a program: `1.0`, `0.1`, `1e+16`. -/
def exact : Layout := ⟨-4, 16, true, 2⟩

/-- How a program prints a number: as `exact`, but a whole number has no fraction. -/
def display : Layout := { exact with wholeFraction := false }

namespace Layout

/-- The decimal digits of `n`, padded with leading zeros to `width`. -/
def padded (width n : Nat) : String :=
  let digits := Nat.toDigits 10 n
  String.ofList (List.replicate (width - digits.length) '0' ++ digits)

/-- Writes digits, the first of which has weight `10 ^ lead`, with a point in its place. -/
def positional (layout : Layout) (digits : List Char) (lead : Int) : String :=
  let whole := (lead + 1).toNat
  if lead < 0 then
    "0." ++ String.ofList (List.replicate (-lead - 1).toNat '0' ++ digits)
  else if digits.length ≤ whole then
    String.ofList (digits ++ List.replicate (whole - digits.length) '0')
      ++ (if layout.wholeFraction then ".0" else "")
  else
    String.ofList (digits.take whole) ++ "." ++ String.ofList (digits.drop whole)

/-- Writes digits with one of them before the point, and an exponent. -/
def scientific (layout : Layout) (digits : List Char) (lead : Int) : String :=
  let rest := digits.drop 1
  String.ofList (digits.take 1)
    ++ (if rest.isEmpty then "" else "." ++ String.ofList rest)
    ++ "e" ++ (if lead < 0 then "-" else "+") ++ padded layout.exponentDigits lead.natAbs

/-- Writes a nonnegative decimal. Zero counts as having its leading digit at weight one. -/
def decimal (layout : Layout) (d : Decimal) : String :=
  let digits := Nat.toDigits 10 d.digits
  let lead := d.exponent + digits.length - 1
  if layout.positionalFrom ≤ lead ∧ lead < layout.positionalBelow then
    layout.positional digits lead
  else layout.scientific digits lead

/-- Writes a number. Only a number that is not one has no sign. -/
def write (layout : Layout) (x : Float) : String :=
  let sign (negative : Bool) := if negative then "-" else ""
  match parts x with
  | .nan => "nan"
  | .infinite negative => sign negative ++ "inf"
  | .finite negative magnitude => sign negative ++ layout.decimal magnitude.shortest

end Layout

/-! ## Reading -/

/-- The number that a row of decimal digits stands for. -/
def digitsValue (digits : List Char) : Nat :=
  digits.foldl (fun n c ↦ 10 * n + (c.toNat - '0'.toNat)) 0

/-- The double nearest to `digits * 10 ^ exponent`. Exponents far outside the range of doubles are
settled without forming the power. -/
def ofDecimal (digits : List Char) (exponent : Int) : Float :=
  let n := digitsValue digits
  if n = 0 then 0.0
  else if 400 < exponent then 1.0 / 0.0
  else if exponent + digits.length < -400 then 0.0
  else Float.ofScientific n (decide (exponent < 0)) exponent.natAbs

/-- The value of a number literal of the language: digits, and digits after the point. -/
def ofLiteral (whole fraction : List Char) : Float :=
  ofDecimal (whole ++ fraction) (-fraction.length)

/-- Reads a signed row of at least one digit. -/
def readExponent? : List Char → Option Int
  | '-' :: cs => if cs.isEmpty ∨ !cs.all Char.isDigit then none else some (-digitsValue cs)
  | '+' :: cs => if cs.isEmpty ∨ !cs.all Char.isDigit then none else some (digitsValue cs)
  | cs => if cs.isEmpty ∨ !cs.all Char.isDigit then none else some (digitsValue cs)

/-- Reads an unsigned decimal: digits with at most one point among them, at least one digit, and
perhaps an exponent. -/
def readMagnitude? (cs : List Char) : Option Float :=
  let whole := cs.takeWhile Char.isDigit
  let rest := cs.dropWhile Char.isDigit
  let (fraction, rest) := match rest with
    | '.' :: rest => (rest.takeWhile Char.isDigit, rest.dropWhile Char.isDigit)
    | _ => ([], rest)
  if whole.isEmpty ∧ fraction.isEmpty then none
  else match rest with
    | [] => some (ofLiteral whole fraction)
    | mark :: rest =>
      if mark = 'e' ∨ mark = 'E' then
        (readExponent? rest).map fun e ↦ ofDecimal (whole ++ fraction) (e - fraction.length)
      else none

/-- Reads any decimal, with the names of the values that are no decimals. -/
def read? (text : String) : Option Float :=
  let unsigned (cs : List Char) : Option Float :=
    match String.ofList (cs.map Char.toLower) with
    | "inf" | "infinity" => some (1.0 / 0.0)
    | "nan" => some (0.0 / 0.0)
    | _ => readMagnitude? cs
  match text.toList with
  | '-' :: cs => (unsigned cs).map fun x ↦ -x
  | '+' :: cs => unsigned cs
  | cs => unsigned cs

end Lox.Number
