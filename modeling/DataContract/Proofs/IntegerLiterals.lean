import Mathlib
import DataContract.Proofs.SameData

/-!
# Integers as literals

A literal compares numbers by magnitude: both become doubles, and the doubles may differ by less
than 2^-52. For two integers the tolerance never matters, since the difference of two whole doubles
is zero or at least one. What matters is that an integer loses the bits behind the 53rd on the way.

1. `Double.roundDiv_nearest`: the rounding of a quotient, said without the division.
2. `Rounded`: an integer to 53 significant bits. There is one (`Double.exists_rounded`), it is what
   the double holds, and there is only one (`Rounded.unique`).
3. `Double.units_sub_lt_iff`: whole doubles are close only when they are equal, so two integers are
   close when they become the same double (`Number.close_integers_iff`).
4. `Schema.accepts_integer`: an integer literal accepts the integers with the same 53 bits. Where
   one of the two is below 2^53 these are the same integer.

It is false to expect that an identifier above 2^53 accepts itself only
(`Schema.accepts_neighbour`).
-/

namespace DataContract

/-! ## 1. Quotients -/

namespace Double

open RoundingLemmas

/-- The whole number nearest to a quotient is at most half a step away, and even where it is half a
step away. -/
theorem roundDiv_nearest {den : Nat} (num : Nat) (pos : 0 < den) :
    2 * ((num : Int) - roundDiv num den * den).natAbs ≤ den ∧
      (2 * ((num : Int) - roundDiv num den * den).natAbs = den → 2 ∣ roundDiv num den) := by
  have split : (num : Int) = (num / den : Nat) * den + (num % den : Nat) := by
    rw [Int.mul_comm]
    exact_mod_cast (Nat.div_add_mod num den).symm
  have small := Nat.mod_lt num pos
  unfold roundDiv
  generalize num / den = quotient at split ⊢
  generalize num % den = rest at split small ⊢
  rw [split]
  dsimp only
  split
  · next down => exact ⟨by omega, by omega⟩
  · split
    · next up =>
      have next : ((quotient + 1 : Nat) : Int) * den = quotient * den + den := by
        push_cast
        ring
      rw [next]
      exact ⟨by omega, by omega⟩
    · rcases Nat.mod_two_eq_zero_or_one quotient with even | odd
      · rw [even, Nat.add_zero]
        exact ⟨by omega, by omega⟩
      · have next : ((quotient + 1 : Nat) : Int) * den = quotient * den + den := by
          push_cast
          ring
        rw [odd, next]
        exact ⟨by omega, by omega⟩

/-- A common factor does not change a rounded quotient. -/
theorem roundDiv_mul_right {factor : Nat} (num den : Nat) (pos : 0 < factor) :
    roundDiv (num * factor) (den * factor) = roundDiv num den := by
  have less {a b : Nat} : 2 * (a * factor) < b * factor ↔ 2 * a < b := by
    rw [← Nat.mul_assoc]
    exact Nat.mul_lt_mul_right pos
  have more {a b : Nat} : b * factor < 2 * (a * factor) ↔ b < 2 * a := by
    rw [← Nat.mul_assoc]
    exact Nat.mul_lt_mul_right pos
  simp only [roundDiv, Nat.mul_div_mul_right _ _ pos, Nat.mul_mod_mul_right, less, more]

theorem log2_mul_two_pow {n : Nat} (h : n ≠ 0) (k : Nat) : (n * 2 ^ k).log2 = n.log2 + k := by
  induction k with
  | zero => exact congrArg Nat.log2 (Nat.mul_one n)
  | succ k ih =>
    have more : n * 2 ^ k ≠ 0 := Nat.mul_ne_zero h (Nat.ne_of_gt (Nat.two_pow_pos k))
    rw [Nat.pow_succ', Nat.mul_left_comm, Nat.log2_two_mul more, ih, Nat.add_assoc]

end Double

/-! ## 2. Fifty-three bits -/

/-- The distance from an integer to the next one with 53 significant bits. -/
def spacing (n : Int) : Nat := 2 ^ (n.natAbs.log2 - 52)

/-- `m` is `n` to 53 significant bits: the nearest multiple of the spacing, and of two the one whose
last bit is zero. -/
structure Rounded (n m : Int) : Prop where
  multiple : (spacing n : Int) ∣ m
  nearest : 2 * (n - m).natAbs ≤ spacing n
  even : 2 * (n - m).natAbs = spacing n → 2 * (spacing n : Int) ∣ m

instance (n m : Int) : Decidable (Rounded n m) :=
  decidable_of_iff ((spacing n : Int) ∣ m ∧ 2 * (n - m).natAbs ≤ spacing n ∧
      (2 * (n - m).natAbs = spacing n → 2 * (spacing n : Int) ∣ m))
    ⟨fun h => ⟨h.1, h.2.1, h.2.2⟩, fun h => ⟨h.multiple, h.nearest, h.even⟩⟩

/-- Two neighbours on the grid are not both even. -/
theorem Rounded.unique {n m m' : Int} (h : Rounded n m) (h' : Rounded n m') : m = m' := by
  have pos : 0 < spacing n := Nat.two_pow_pos _
  by_contra different
  have apart : m - m' ≠ 0 := sub_ne_zero.mpr different
  have far : spacing n ≤ (m - m').natAbs := Nat.le_of_dvd (Int.natAbs_pos.mpr apart)
    (Int.natCast_dvd.mp (dvd_sub h.multiple h'.multiple))
  have near := h.nearest
  have near' := h'.nearest
  have twice : 2 * (spacing n : Int) ∣ m - m' := dvd_sub (h.even (by omega)) (h'.even (by omega))
  have further : 2 * spacing n ≤ (m - m').natAbs := Nat.le_of_dvd (Int.natAbs_pos.mpr apart)
    (Int.natCast_dvd.mp (by exact_mod_cast twice))
  omega

namespace Double

open RoundingLemmas

/-- The units of an integer are rounded as the integer is. -/
theorem roundUnits_mul_one (n : Int) :
    roundUnits (n.natAbs * one) 1 = roundDiv n.natAbs (spacing n) * spacing n * one := by
  rw [roundUnits_one, spacing]
  generalize n.natAbs = count
  rcases Nat.eq_zero_or_pos count with rfl | pos
  · simp only [Nat.zero_mul, roundDiv, Nat.zero_div, Nat.zero_mod, Nat.mul_zero,
      Nat.add_zero, Nat.two_pow_pos, if_true]
  · obtain ⟨last, unit, _⟩ := exists_one_eq
    rw [unit, log2_mul_two_pow (Nat.ne_of_gt pos)]
    by_cases long : 52 ≤ count.log2
    · have bits : count.log2 + last - 52 = count.log2 - 52 + last := by omega
      rw [bits, Nat.pow_add, roundDiv_mul_right _ _ (Nat.two_pow_pos last), Nat.mul_assoc]
    · have nothingLost : 2 ^ (count.log2 + last - 52) ∣ count * 2 ^ last :=
        Nat.dvd_mul_left_of_dvd (Nat.pow_dvd_pow 2 (by omega)) count
      have single : count.log2 - 52 = 0 := by omega
      rw [roundDiv_of_dvd (Nat.two_pow_pos _) nothingLost, Nat.div_mul_cancel nothingLost, single,
        roundDiv_of_dvd (Nat.two_pow_pos 0) (Nat.one_dvd count), Nat.pow_zero, Nat.div_one,
        Nat.mul_one]

/-- An integer of 64 bits, as a double, is the integer rounded. -/
theorem exists_rounded {n : Int} (h : n.natAbs ≤ 2 ^ 64) :
    ∃ m, Rounded n m ∧ (ofInt n).scaled = m * (one : Int) := by
  have units (negative : Bool) : (ofRatio negative (n * (one : Int)).natAbs 1).units =
      roundDiv n.natAbs (spacing n) * spacing n * one := by
    have inside : roundUnits (n.natAbs * one) 1 < limit := by
      have top : Representable (2 ^ 64 * one) := by decide +kernel
      exact Nat.lt_of_le_of_lt (roundUnits_le top (Nat.mul_le_mul_right one h)) top.1
    rw [Int.natAbs_mul, Int.natAbs_natCast,
      units_ofRatio negative (representable_roundUnits inside), roundUnits_mul_one]
  obtain ⟨near, even⟩ := roundDiv_nearest n.natAbs (Nat.two_pow_pos (n.natAbs.log2 - 52))
  rw [← spacing] at near even
  generalize roundDiv n.natAbs (spacing n) = quotient at units near even
  have multiple : (spacing n : Int) ∣ (quotient * spacing n : Nat) :=
    Int.natCast_dvd_natCast.mpr (Nat.dvd_mul_left _ _)
  have twice (tie : 2 * ((n.natAbs : Int) - quotient * spacing n).natAbs = spacing n) :
      2 * (spacing n : Int) ∣ (quotient * spacing n : Nat) := by
    exact_mod_cast Nat.mul_dvd_mul_right (even tie) (spacing n)
  rw [← Int.natCast_mul] at near twice
  rw [ofInt]
  rcases Int.lt_or_le n 0 with negative | positive
  · refine ⟨-(quotient * spacing n : Nat), ⟨Int.dvd_neg.mpr multiple, ?_, fun tie => ?_⟩, ?_⟩
    · omega
    · exact Int.dvd_neg.mpr (twice (by omega))
    · rw [scaled_ofScaled_of_neg _ (Int.mul_neg_of_neg_of_pos negative one_pos), units, Int.neg_mul,
        Int.natCast_mul]
  · refine ⟨(quotient * spacing n : Nat), ⟨multiple, ?_, fun tie => ?_⟩, ?_⟩
    · omega
    · exact twice (by omega)
    · rw [scaled_ofScaled_of_nonneg _ (Int.mul_nonneg positive (le_of_lt one_pos)), units,
        Int.natCast_mul]

/-- Where an integer has at most 53 bits, no other one becomes the same double: rounding does not
pass 2 ^ 53 on either side. -/
theorem eq_of_scaled_ofInt {a b : Int} (small : a.natAbs < 2 ^ 53)
    (h : (ofInt a).scaled = (ofInt b).scaled) : a = b := by
  have exact {n : Int} (few : n.natAbs ≤ 2 ^ 53) : (ofInt n).scaled = n * (one : Int) :=
    scaled_ofScaled_mul_one false few
  rw [exact (Nat.le_of_lt small)] at h
  by_cases few : b.natAbs ≤ 2 ^ 53
  · rw [exact few] at h
    exact Int.eq_of_mul_eq_mul_right (ne_of_gt one_pos) h
  · exfalso
    rcases Int.lt_or_le b 0 with negative | positive
    · have past : (ofInt b).scaled ≤ (ofInt (-(2 ^ 53 : Nat))).scaled := by
        refine ofScaled_le false ?_
        rw [exact (by omega)]
        exact Int.mul_le_mul_of_nonneg_right (by omega) (le_of_lt one_pos)
      rw [← h, exact (by omega)] at past
      have := Int.le_of_mul_le_mul_right past one_pos
      omega
    · have past : (ofInt (2 ^ 53 : Nat)).scaled ≤ (ofInt b).scaled := by
        refine le_ofScaled false ?_
        rw [exact (by omega)]
        exact Int.mul_le_mul_of_nonneg_right (by omega) (le_of_lt one_pos)
      rw [← h, exact (by omega)] at past
      have := Int.le_of_mul_le_mul_right past one_pos
      omega

/-! ## 3. Whole doubles -/

theorem scaled_natAbs (x : Double) : x.scaled.natAbs = x.units := by
  cases hx : x.negative with
  | false => rw [scaled_of_positive hx, Int.natAbs_natCast]
  | true => rw [scaled_of_negative hx, Int.natAbs_neg, Int.natAbs_natCast]

/-- Whole doubles that differ at all differ by more than the tolerance. -/
theorem units_sub_lt_iff {x y : Double} (hx : (one : Int) ∣ x.scaled)
    (hy : (one : Int) ∣ y.scaled) :
    (x.sub y).units < (halved 52).units ↔ x.scaled = y.scaled := by
  constructor
  · intro close
    by_contra different
    have apart : x.scaled - y.scaled ≠ 0 := sub_ne_zero.mpr different
    have far : one ≤ (x.scaled - y.scaled).natAbs := Nat.le_of_dvd (Int.natAbs_pos.mpr apart)
      (Int.natCast_dvd.mp (dvd_sub hx hy))
    have tolerance : (halved 52).units < one := by decide +kernel
    have unit : (ofInt 1).scaled = (one : Int) := (scaled_ofInt (by decide)).trans (Int.one_mul _)
    have difference : x.scaled + y.neg.scaled = x.scaled - y.scaled := by
      rw [scaled_neg, Int.sub_eq_add_neg]
    have past : one ≤ (x.sub y).units := by
      rw [sub, add, difference, ← scaled_natAbs]
      rcases Int.lt_or_le (x.scaled - y.scaled) 0 with negative | positive
      · have := @ofScaled_le (ofInt 1).neg _ (x.negative && y.neg.negative)
          (by rw [scaled_neg, unit]; omega : x.scaled - y.scaled ≤ (ofInt 1).neg.scaled)
        rw [scaled_neg, unit] at this
        omega
      · have := @le_ofScaled (ofInt 1) _ (x.negative && y.neg.negative)
          (by rw [unit]; omega : (ofInt 1).scaled ≤ x.scaled - y.scaled)
        rw [unit] at this
        omega
    omega
  · intro same
    rw [← units_sub_congr same, units_sub_self]
    exact units_halved_pos

end Double

namespace Number

/-- Integers of 64 bits, with a sign or without. -/
def IsWord (n : Int) : Prop := minSigned ≤ n ∧ n ≤ maxUnsigned

instance (n : Int) : Decidable (IsWord n) := inferInstanceAs (Decidable (_ ∧ _))

theorem natAbs_le_of_isWord {n : Int} (h : IsWord n) : n.natAbs ≤ 2 ^ 64 := by
  obtain ⟨least, most⟩ := h
  unfold minSigned at least
  unfold maxUnsigned at most
  omega

/-- Two integers of 64 bits are close when they become the same double. -/
theorem close_integers_iff {a b : Int} (ha : IsWord a) (hb : IsWord b) :
    (integer a).close (integer b) = true ↔ (Double.ofInt a).scaled = (Double.ofInt b).scaled := by
  have whole {n : Int} (h : IsWord n) : (Double.one : Int) ∣ (Double.ofInt n).scaled := by
    obtain ⟨m, -, same⟩ := Double.exists_rounded (natAbs_le_of_isWord h)
    exact same ▸ Int.dvd_mul_left _ _
  rw [close, decide_eq_true_eq]
  exact Double.units_sub_lt_iff (whole ha) (whole hb)

end Number

/-! ## 4. Integer literals -/

theorem Schema.accepts_literal (context : Context) (expected value : Value)
    (title : Option String) :
    (literal expected title).accepts context value = some (expected.sameLiteral value) := by
  obtain ⟨fuel, steps⟩ := exists_check_eq context (literal expected title) value
  rw [accepts, steps, checkWithin]
  cases expected.sameLiteral value <;> rfl

/-- An integer literal accepts an integer when both have the same 53 significant bits. Below 2^53 it
accepts itself only. -/
theorem Schema.accepts_integer (context : Context) (title : Option String) {a b : Int}
    (ha : Number.IsWord a) (hb : Number.IsWord b) :
    ∃ fits, (literal (.integer a) title).accepts context (.integer b) = some fits ∧
      (fits = true ↔ ∃ m, Rounded a m ∧ Rounded b m) ∧
      (a.natAbs < 2 ^ 53 ∨ b.natAbs < 2 ^ 53 → (fits = true ↔ a = b)) := by
  refine ⟨(Number.integer a).close (.integer b), accepts_literal .., ?_, fun small => ?_⟩
  · obtain ⟨m, rounded, held⟩ := Double.exists_rounded (Number.natAbs_le_of_isWord ha)
    obtain ⟨m', rounded', held'⟩ := Double.exists_rounded (Number.natAbs_le_of_isWord hb)
    rw [Number.close_integers_iff ha hb, held, held']
    constructor
    · intro same
      obtain rfl := Int.eq_of_mul_eq_mul_right (ne_of_gt Double.one_pos) same
      exact ⟨m, rounded, rounded'⟩
    · rintro ⟨common, left, right⟩
      rw [rounded.unique left, rounded'.unique right]
  · rw [Number.close_integers_iff ha hb]
    constructor
    · intro same
      rcases small with few | few
      · exact Double.eq_of_scaled_ofInt few same
      · exact (Double.eq_of_scaled_ofInt few same.symm).symm
    · rintro rfl
      rfl

/-- The two largest integers that a document can hold and the double between them: the literal
accepts the other, so both have the same 53 bits. -/
theorem Schema.accepts_largestWord :
    (Number.IsWord 18446744073709551615 ∧ Number.IsWord 18446744073709550592) ∧
      ∃ m, Rounded 18446744073709551615 m ∧ Rounded 18446744073709550592 m := by
  have words : Number.IsWord 18446744073709551615 ∧ Number.IsWord 18446744073709550592 := by decide
  obtain ⟨fits, accepted, same, -⟩ := accepts_integer (.ofRegistry .initial) none words.1 words.2
  have told : fits = true := by
    rw [accepts_literal] at accepted
    obtain rfl := Option.some.inj accepted
    decide +kernel
  exact ⟨words, same.mp told⟩

/-- The literal 2^53 + 1 accepts 2^53. -/
theorem Schema.accepts_neighbour :
    Number.IsWord 9007199254740993 ∧ Number.IsWord 9007199254740992 ∧
      (literal (.integer 9007199254740993) none).accepts (.ofRegistry .initial)
        (.integer 9007199254740992) = some true := by
  refine ⟨by decide, by decide, ?_⟩
  rw [accepts_literal]
  decide +kernel

end DataContract
