import DataContract.Number.Shortest

/-!
# Numbers of the data format

A number is an integer or a finite double, and the two are different data: `1` is not `1.0`.
`Number.close` compares by magnitude instead, as literals of a schema do.
-/

namespace DataContract

/-- A number as it was written: without a fraction and in range of 64 bits, or a double. -/
inductive Number where
  | integer (n : Int)
  | double (x : Double)
  deriving DecidableEq

namespace Number

/-- The smallest signed 64-bit integer. -/
def minSigned : Int := -9223372036854775808

/-- The largest signed 64-bit integer. -/
def maxSigned : Int := 9223372036854775807

/-- The largest unsigned 64-bit integer. -/
def maxUnsigned : Int := 18446744073709551615

/-- An integer clamped to the signed 64-bit range. -/
def clampSigned (n : Int) : Int := max minSigned (min n maxSigned)

/-- The magnitude as a double, rounded when it has more than 53 significant bits. -/
def toDouble : Number → Double
  | integer n => .ofInt n
  | double x => x

/-- The same kind of number and the same magnitude. -/
def same : Number → Number → Bool
  | integer m, integer n => m == n
  | double x, double y => x.same y
  | _, _ => false

/-- The same magnitude up to 2^-52, whatever the kind. -/
def close (a b : Number) : Bool :=
  (a.toDouble.sub b.toDouble).units < (Double.halved 52).units

/-- A whole double of the signed 64-bit range becomes an integer. -/
def ofDouble (x : Double) : Number :=
  if x.isWhole && minSigned ≤ x.floor && x.floor ≤ maxSigned + 1 then integer (clampSigned x.floor)
  else double x

def text : Number → String
  | integer n => if n < 0 then "-" ++ n.natAbs.repr else n.natAbs.repr
  | double x => x.text

end Number
end DataContract
