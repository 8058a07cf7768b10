import DataContract.Number.Double

/-!
# Decimal numerals

- `Decimal.toDouble?`: the double nearest to a decimal, none when it lies beyond the range.
- `Numeral`: a written number as its runs of digits; `Numeral.scan` cuts the longest one off a
  text, without judging leading zeros or empty runs.
- `Numeral.ofLiteral?`: the numbers that a raw literal may hold.
-/

namespace DataContract

/-- A signed whole number times a power of ten. -/
structure Decimal where
  negative : Bool
  digits : Nat
  exponent : Int
  deriving DecidableEq

/-- Decimal digits of a natural number, `0` for zero. -/
def digitCount (n : Nat) : Nat := (Nat.toDigits 10 n).length

/-- The number that a run of decimal digits denotes. -/
def natOfDigits (digits : List Char) : Nat :=
  digits.foldl (fun n c => 10 * n + (c.toNat - '0'.toNat)) 0

namespace Decimal

/-- The double nearest to the decimal. A magnitude outside 10^±400 is settled by its exponent. Every
decimal is rounded once, those in JSON texts too: a reader that multiplies a rounded mantissa by a
rounded power of ten may give a neighbour of this double. -/
def toDouble? (d : Decimal) : Option Double :=
  if d.digits = 0 then some (.zero d.negative)
  else
    let magnitude := (digitCount d.digits : Int) + d.exponent
    if 400 < magnitude then none
    else if magnitude < -400 then some (.zero d.negative)
    else if 0 ≤ d.exponent then
      Double.ofRatio? d.negative (d.digits * 10 ^ d.exponent.toNat * Double.one) 1
    else Double.ofRatio? d.negative (d.digits * Double.one) (10 ^ (-d.exponent).toNat)

end Decimal

/-- A written number: its sign if one is written, the digits before the point, those after it if
there is a point, and the sign and digits of its exponent if it has one. -/
structure Numeral where
  sign : Option Char
  whole : List Char
  fraction : Option (List Char)
  exponent : Option (Option Char × List Char)
  deriving DecidableEq

namespace Numeral

/-- Takes a sign off the front. -/
def scanSign : List Char → Option Char × List Char
  | '+' :: rest => (some '+', rest)
  | '-' :: rest => (some '-', rest)
  | rest => (none, rest)

/-- Takes a point and the digits behind it off the front. -/
def scanFraction : List Char → Option (List Char) × List Char
  | '.' :: rest => (some (rest.takeWhile Char.isDigit), rest.dropWhile Char.isDigit)
  | rest => (none, rest)

/-- Takes an exponent off the front. -/
def scanExponent : List Char → Option (Option Char × List Char) × List Char
  | c :: rest =>
    if c = 'e' ∨ c = 'E' then
      let (sign, digits) := scanSign rest
      (some (sign, digits.takeWhile Char.isDigit), digits.dropWhile Char.isDigit)
    else (none, c :: rest)
  | [] => (none, [])

/-- Takes the longest numeral off the front. -/
def scan (text : List Char) : Numeral × List Char :=
  let (sign, text) := scanSign text
  let whole := text.takeWhile Char.isDigit
  let (fraction, text) := scanFraction (text.dropWhile Char.isDigit)
  let (exponent, text) := scanExponent text
  (⟨sign, whole, fraction, exponent⟩, text)

def negative (n : Numeral) : Bool := n.sign == some '-'

/-- Whether the exponent, if there is one, has a digit. -/
def exponentComplete (n : Numeral) : Bool :=
  match n.exponent with
  | none => true
  | some (_, digits) => !digits.isEmpty

/-- Whether neither a point nor an exponent is written. -/
def isPlain (n : Numeral) : Bool := n.fraction.isNone && n.exponent.isNone

/-- The number denoted. -/
def toDecimal (n : Numeral) : Decimal :=
  let fraction := n.fraction.getD []
  let exponent : Int :=
    match n.exponent with
    | none => 0
    | some (some '-', digits) => -(natOfDigits digits : Int)
    | some (_, digits) => natOfDigits digits
  ⟨n.negative, natOfDigits (n.whole ++ fraction), exponent - fraction.length⟩

/-- The integer denoted by a plain numeral. -/
def toInt (n : Numeral) : Int :=
  if n.negative then -(natOfDigits n.whole : Int) else natOfDigits n.whole

end Numeral

/-- A raw literal holds a number when it has an optional sign, a digit before or after an optional
point, and an exponent that is complete. -/
def Numeral.ofLiteral? (text : List Char) : Option Numeral :=
  let (n, rest) := Numeral.scan text
  let hasDigit := !n.whole.isEmpty || !(n.fraction.getD []).isEmpty
  if rest.isEmpty && hasDigit && n.exponentComplete then some n else none

end DataContract
