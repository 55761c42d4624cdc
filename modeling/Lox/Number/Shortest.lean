/-!
# The shortest decimal that reads back

A finite double is `mantissa * 2 ^ exponent`. Every real number close enough to it rounds to it,
and among those there is one with the fewest decimal digits that lies nearest. This file finds it
in exact natural-number arithmetic.

## The search

The reals that round to a double form an interval. It is measured in quarters of the unit
`2 ^ exponent`: its ends are two quarters away from the value, except that the lower end is one
quarter away when the mantissa is the least one of its binade, where the doubles below lie twice as
close. The ends belong to the interval exactly when the mantissa is even, because a halfway point
goes to the even neighbour.

The decimals with a given last place form a grid. If a grid meets the interval at all, it does so
in one of the two grid points around the value, so each grid is settled by testing two points.
The grids are tried from coarse to fine, starting at one that is at least as coarse as the value,
and the first hit has the fewest digits.
-/

namespace Lox.Number

/-- The magnitude `mantissa * 2 ^ exponent`. -/
structure Binary where
  mantissa : Nat
  exponent : Int
  deriving DecidableEq, Repr

/-- The magnitude `digits * 10 ^ exponent`. -/
structure Decimal where
  digits : Nat
  exponent : Int
  deriving DecidableEq, Repr

/-- What the bits of a double stand for. -/
inductive Parts where
  | nan
  | infinite (negative : Bool)
  | finite (negative : Bool) (magnitude : Binary)
  deriving DecidableEq, Repr

/-- The exponent of the subnormal doubles, which is also the least exponent of all. -/
def leastExponent : Int := -1074

/-- The leading bit of a mantissa, which the bits of a normal double leave out. -/
def hiddenBit : Nat := Nat.pow 2 52

/-- Splits a double into its sign and its magnitude. -/
def parts (x : Float) : Parts :=
  let bits := x.toBits.toNat
  let negative := decide (Nat.pow 2 63 ≤ bits)
  let biased : Nat := bits / hiddenBit % Nat.pow 2 11
  let fraction : Nat := bits % hiddenBit
  if biased = 2047 then
    if fraction = 0 then .infinite negative else .nan
  else if biased = 0 then .finite negative ⟨fraction, leastExponent⟩
  else .finite negative ⟨hiddenBit + fraction, (biased : Int) + leastExponent - 1⟩

namespace Binary

variable (b : Binary)

/-- The lower end of the interval that rounds to `b`, in quarters of its unit. -/
def lower : Nat :=
  if b.mantissa = hiddenBit ∧ leastExponent < b.exponent then 4 * b.mantissa - 1
  else 4 * b.mantissa - 2

/-- The upper end of the interval that rounds to `b`, in quarters of its unit. -/
def upper : Nat := 4 * b.mantissa + 2

/-- One quarter of the unit of `b` is `fst / snd` steps of the grid with last place `10 ^ place`. -/
def quarterOnGrid (place : Int) : Nat × Nat :=
  let unit := b.exponent - 2
  (Nat.pow 2 unit.toNat * Nat.pow 10 (-place).toNat,
    Nat.pow 2 (-unit).toNat * Nat.pow 10 place.toNat)

/-- Whether grid point `d` lies in the interval that rounds to `b`. -/
def rounds (place : Int) (d : Nat) : Bool :=
  let (num, den) := b.quarterOnGrid place
  if b.mantissa % 2 = 0 then
    decide (b.lower * num ≤ d * den) && decide (d * den ≤ b.upper * num)
  else
    decide (b.lower * num < d * den) && decide (d * den < b.upper * num)

/-- The last grid point that does not exceed `b`. -/
def below (place : Int) : Nat :=
  let (num, den) := b.quarterOnGrid place
  4 * b.mantissa * num / den

/-- Whether `b` is closer to the grid point below it than to the next one. Halfway between them the
even one counts as closer. -/
def nearerBelow (place : Int) : Bool :=
  let (num, den) := b.quarterOnGrid place
  let value := 4 * b.mantissa * num
  let d := b.below place
  let down := value - d * den
  let up := (d + 1) * den - value
  decide (down < up ∨ down = up ∧ d % 2 = 0)

/-- The grid point nearest to `b` among those that read back as `b`, if the grid has one. -/
def onGrid? (place : Int) : Option Nat :=
  let d := b.below place
  match b.rounds place d, b.rounds place (d + 1) with
  | true, true => some (if b.nearerBelow place then d else d + 1)
  | true, false => some d
  | false, true => some (d + 1)
  | false, false => none

/-- Tries grids from `place` downwards, at most `fuel` of them. -/
def search : Nat → Int → Decimal
  | 0, place => ⟨b.below place, place⟩
  | fuel + 1, place =>
    match b.onGrid? place with
    | some d => ⟨d, place⟩
    | none => search fuel (place - 1)

/-- A place at least as coarse as the leading digit of `b`: the binary magnitude times `log₁₀ 2`,
rounded up. -/
def leadingPlace : Int :=
  Int.fdiv ((b.exponent + Nat.log2 b.mantissa + 1) * 30103) 100000 + 1

/-- The decimal of fewest digits that reads back as `b`, and of those the nearest. Seventeen digits
always suffice, and the search starts at most two places too high. -/
def shortest : Decimal :=
  if b.mantissa = 0 then ⟨0, 0⟩ else b.search 20 b.leadingPlace

end Binary

example : (Binary.mk 1 leastExponent).shortest = ⟨5, -324⟩ := by decide +kernel
example : (Binary.mk (hiddenBit + 2702159776422298) (-56)).shortest = ⟨1, -1⟩ := by decide +kernel
example : (Binary.mk 6778038271275846 (-3)).shortest = ⟨8472547839094808, -1⟩ := by decide +kernel
example : (Binary.mk hiddenBit 4).shortest = ⟨7205759403792794, 1⟩ := by decide +kernel

end Lox.Number
