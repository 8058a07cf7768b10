import DataContract.Number.Decimal

/-!
# The shortest text of a double

A double is written with the fewest decimal digits that read back as the same double; of two such
decimals the nearer one is written, and of two equally near the one with an even last digit.

- `Double.shortest`: those digits and the place of the decimal point.
- `Double.text`: positional notation with at least one decimal from 10^-5 up to 10^16, scientific
  notation with a signed exponent outside.
-/

namespace DataContract
namespace Double

/-- The numbers, in half units, that round to a double: the two ends, and whether they belong. -/
structure RoundingInterval where
  low : Nat
  high : Nat
  closed : Bool

/-- Half way to each neighbour. The neighbour below a power of two is only half as far away; the
ends round here when the last of the 53 bits is zero. -/
def roundingInterval (units : Nat) : RoundingInterval :=
  let lead := 2 ^ (units.log2 - 52)
  let below := if units = 2 ^ units.log2 ∧ 1 < lead then lead / 2 else lead
  ⟨2 * units - below, 2 * units + lead, units / lead % 2 == 0⟩

/-- Whether `digits` times ten to `place` lies in the interval. -/
def RoundingInterval.contains (i : RoundingInterval) (digits : Nat) (place : Int) : Bool :=
  let value := digits * 10 ^ place.toNat * (2 * Double.one)
  let scale := 10 ^ (-place).toNat
  if i.closed then i.low * scale ≤ value && value ≤ i.high * scale
  else i.low * scale < value && value < i.high * scale

/-- Number of digits before the decimal point; zero or less when the first digit comes after it. -/
def pointPlace (units : Nat) : Int :=
  (digitCount (units * 10 ^ 400 / Double.one) : Int) - 400

/-- Of the two neighbours on the grid of `10 ^ place` the one that reads back, or the nearer one
when both do, a tie going to the even digit. -/
def onGrid? (units : Nat) (interval : RoundingInterval) (place : Int) : Option Nat :=
  let num := units * 10 ^ (-place).toNat
  let den := 10 ^ place.toNat * Double.one
  let below := num / den
  match interval.contains below place, interval.contains (below + 1) place with
  | true, true => some (Double.roundDiv num den)
  | true, false => some below
  | false, true => some (below + 1)
  | false, false => none

/-- The first grid with a hit, from coarse to fine. Seventeen digits always suffice. -/
def searchGrids (units : Nat) (interval : RoundingInterval) : Nat → Int → Nat × Int
  | 0, place =>
    (Double.roundDiv (units * 10 ^ (-place).toNat) (10 ^ place.toNat * Double.one), place)
  | more + 1, place =>
    match onGrid? units interval place with
    | some digits => (digits, place)
    | none => searchGrids units interval more (place - 1)

/-- The digits of the shortest decimal of a positive unit count, and the power of ten that scales
them. -/
def shortest (units : Nat) : Nat × Int :=
  searchGrids units (roundingInterval units) 17 (pointPlace units - 1)

/-- Drops zeros at the end of a digit list. -/
def dropTrailingZeros (digits : List Char) : List Char :=
  (digits.reverse.dropWhile (· == '0')).reverse

/-- Positional or scientific notation for the digits `d.ddd` times ten to `exponent`. -/
def layout (digits : List Char) (exponent : Int) : String :=
  let zeros (n : Nat) := List.replicate n '0'
  if -5 ≤ exponent ∧ exponent ≤ 15 then
    if exponent < 0 then
      String.ofList ("0.".toList ++ zeros (-exponent - 1).toNat ++ digits)
    else
      let whole := exponent.toNat + 1
      let tail := digits.drop whole
      String.ofList (digits.take whole ++ zeros (whole - digits.length) ++
        '.' :: (if tail.isEmpty then ['0'] else tail))
  else
    let tail := digits.drop 1
    let mantissa := digits.take 1 ++ (if tail.isEmpty then [] else '.' :: tail)
    String.ofList mantissa ++ "e" ++ (if exponent < 0 then "-" else "+") ++ toString exponent.natAbs

/-- The shortest text that reads back as the same double. -/
def text (x : Double) : String :=
  let sign := if x.negative then "-" else ""
  if x.units = 0 then sign ++ "0.0"
  else
    let (digits, place) := shortest x.units
    let written := Nat.toDigits 10 digits
    sign ++ layout (dropTrailingZeros written) (place + written.length - 1)

end Double
end DataContract
