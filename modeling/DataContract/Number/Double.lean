/-!
# Finite doubles

A finite binary64 number is a sign and a whole count of units of 2^-1074. Every operation is
computed exactly on whole numbers and then rounded once. Infinities and NaN are left out: no JSON
number denotes one, so they are neither data nor bounds that a document can state. A bound at
infinity that is set by hand admits every number, as no bound does, or none.

- `Double.scaled`: the number in units, as an integer; order and equality are those of integers.
- `Double.ofRatio?`: the nearest double of a quotient of unit counts, a half going to the even
  neighbour; none beyond the range.
- `Double.add`, `Double.mul`, ...: exact, then rounded; beyond the range the largest double.
-/

namespace DataContract

-- Powers of natural numbers are those of core, also where a monoid brings its own.
attribute [scoped instance (high), default_instance 20000] instPowNat

/-- Units in one. -/
def Double.one : Nat := 2 ^ 1074

/-- The first unit count beyond the range, 2^1024. -/
def Double.limit : Nat := 2 ^ 2098

/-- Whether a unit count has at most 53 significant bits and lies inside the range. -/
def Double.Representable (units : Nat) : Prop :=
  units < Double.limit ∧ units % 2 ^ (units.log2 - 52) = 0

instance (units : Nat) : Decidable (Double.Representable units) :=
  inferInstanceAs (Decidable (_ ∧ _))

/-- A finite binary64 number: a sign, which zero has too, and a count of units of 2^-1074. -/
structure Double where
  negative : Bool
  units : Nat
  representable : Double.Representable units
  deriving DecidableEq

namespace Double

theorem representable_zero : Representable 0 := by decide +kernel

/-- Zero of either sign. -/
def zero (negative : Bool) : Double := ⟨negative, 0, representable_zero⟩

theorem representable_largest : Representable ((2 ^ 53 - 1) * 2 ^ 2045) := by decide +kernel

/-- The largest double of either sign. -/
def largest (negative : Bool) : Double := ⟨negative, (2 ^ 53 - 1) * 2 ^ 2045, representable_largest⟩

instance : Inhabited Double := ⟨zero false⟩

/-- The number in units of 2^-1074. -/
def scaled (x : Double) : Int := if x.negative then -(x.units : Int) else x.units

instance : LT Double := ⟨fun x y => x.scaled < y.scaled⟩
instance : LE Double := ⟨fun x y => x.scaled ≤ y.scaled⟩
instance (x y : Double) : Decidable (x < y) := inferInstanceAs (Decidable (x.scaled < y.scaled))
instance (x y : Double) : Decidable (x ≤ y) := inferInstanceAs (Decidable (x.scaled ≤ y.scaled))

theorem lt_iff {x y : Double} : x < y ↔ x.scaled < y.scaled := Iff.rfl
theorem le_iff {x y : Double} : x ≤ y ↔ x.scaled ≤ y.scaled := Iff.rfl

/-- Numeric equality: the two zeros are the same number. -/
def same (x y : Double) : Bool := x.scaled == y.scaled

theorem same_iff {x y : Double} : x.same y = true ↔ x.scaled = y.scaled := by
  simp [same]

/-! ## Rounding -/

/-- The whole number nearest to a quotient; a half goes to the even neighbour. -/
def roundDiv (num den : Nat) : Nat :=
  let quotient := num / den
  let rest := num % den
  if 2 * rest < den then quotient
  else if den < 2 * rest then quotient + 1
  else quotient + quotient % 2

/-- The unit count of 53 significant bits nearest to a quotient of unit counts. -/
def roundUnits (num den : Nat) : Nat :=
  let shift := (num / den).log2 - 52
  roundDiv num (den * 2 ^ shift) * 2 ^ shift

/-- The double with these units, when there is one. -/
def ofUnits? (negative : Bool) (units : Nat) : Option Double :=
  if h : Representable units then some ⟨negative, units, h⟩ else none

/-- The double nearest to a quotient of unit counts, none beyond the range. -/
def ofRatio? (negative : Bool) (num den : Nat) : Option Double :=
  ofUnits? negative (roundUnits num den)

/-- The double nearest to a quotient of unit counts, the largest one beyond the range. -/
def ofRatio (negative : Bool) (num den : Nat) : Double :=
  (ofRatio? negative num den).getD (largest negative)

/-- The double nearest to a sum of units. A zero is negative when `zeroSign` says so. -/
def ofScaled (zeroSign : Bool) (n : Int) : Double :=
  ofRatio (if n = 0 then zeroSign else n < 0) n.natAbs 1

/-! ## Arithmetic -/

def neg (x : Double) : Double := ⟨!x.negative, x.units, x.representable⟩

def add (x y : Double) : Double := ofScaled (x.negative && y.negative) (x.scaled + y.scaled)

def sub (x y : Double) : Double := x.add y.neg

def mul (x y : Double) : Double :=
  ofRatio (x.negative != y.negative) (x.units * y.units) one

/-- A quotient by zero is the largest double. -/
def div (x y : Double) : Double :=
  if y.units = 0 then largest (x.negative != y.negative)
  else ofRatio (x.negative != y.negative) (x.units * one) y.units

/-- The double nearest to an integer. -/
def ofInt (n : Int) : Double := ofScaled false (n * one)

/-- The greatest integer that is not above the number. -/
def floor (x : Double) : Int := x.scaled / (one : Int)

/-- The least integer that is not below the number. -/
def ceil (x : Double) : Int := -((-x.scaled) / (one : Int))

/-- Whether the number has no fractional part. -/
def isWhole (x : Double) : Bool := x.units % one == 0

/-- The largest double nearer to zero; zero itself for zero. -/
def towardZero (x : Double) : Double :=
  let lead := 2 ^ (x.units.log2 - 52)
  let gap := if x.units = 2 ^ x.units.log2 ∧ 1 < lead then lead / 2 else lead
  (ofUnits? x.negative (x.units - gap)).getD (zero x.negative)

/-- A double that is one over a power of two. -/
def halved (power : Nat) : Double := ofRatio false one (2 ^ power)

end Double

end DataContract
