import Mathlib
import DataContract.Number

/-!
# Rounding keeps order

A whole count of units is rounded to the nearest double. Whatever the count, rounding never moves it
past a double:

1. `Double.le_roundUnits`, `Double.roundUnits_le`: a representable count on one side of a count
   stays on that side of its rounding.
2. `Double.le_ofScaled`, `Double.ofScaled_le`: the same for signed counts, beyond the range too.
3. `Double.le_toDouble_of_ceil_le`, `Double.toDouble_le_of_le_floor`: an integer inside bounds that
   are rounded inwards is a number inside the bounds themselves. Whole numbers of less than 53 bits
   keep their order (`Double.le_of_ofInt_le_ofInt`).
4. `Number.close_self`: a number has the magnitude of itself.
-/

namespace DataContract
namespace Double

/-! ## 1. Unit counts -/

namespace RoundingLemmas

theorem log2_mono {m n : Nat} (h : m ≤ n) : m.log2 ≤ n.log2 := by
  rw [Nat.log2_eq_log_two, Nat.log2_eq_log_two]
  exact Nat.log_mono_right h

theorem div_le_roundDiv (num den : Nat) : num / den ≤ roundDiv num den := by
  unfold roundDiv
  simp only
  split
  · exact Nat.le_refl _
  · split <;> omega

theorem roundDiv_le (num den : Nat) : roundDiv num den ≤ num / den + 1 := by
  unfold roundDiv
  simp only
  split
  · omega
  · split <;> omega

theorem roundDiv_of_dvd {num den : Nat} (hd : 0 < den) (h : den ∣ num) :
    roundDiv num den = num / den := by
  have hr : num % den = 0 := Nat.mod_eq_zero_of_dvd h
  simp [roundDiv, hr, hd]

theorem le_roundDiv_mul {u num den : Nat} (hd : den ∣ u) (h : u ≤ num) :
    u ≤ roundDiv num den * den := by
  calc
    u = u / den * den := (Nat.div_mul_cancel hd).symm
    _ ≤ num / den * den := Nat.mul_le_mul_right _ (Nat.div_le_div_right h)
    _ ≤ roundDiv num den * den := Nat.mul_le_mul_right _ (div_le_roundDiv num den)

theorem roundDiv_mul_le {u num den : Nat} (hp : 0 < den) (hd : den ∣ u) (h : num ≤ u) :
    roundDiv num den * den ≤ u := by
  obtain ⟨k, rfl⟩ := hd
  rw [Nat.mul_comm den k]
  refine Nat.mul_le_mul_right den ?_
  by_cases hn : den ∣ num
  · rw [roundDiv_of_dvd hp hn]
    exact Nat.div_le_of_le_mul h
  · have below : num / den < k := by
      rw [Nat.div_lt_iff_lt_mul hp, Nat.mul_comm]
      exact Nat.lt_of_le_of_ne h fun heq => hn (heq ▸ Nat.dvd_mul_right den k)
    exact Nat.le_trans (roundDiv_le num den) below

theorem roundUnits_one (num : Nat) :
    roundUnits num 1 = roundDiv num (2 ^ (num.log2 - 52)) * 2 ^ (num.log2 - 52) := by
  simp [roundUnits]

theorem pow_dvd_of_representable {u shift : Nat} (hu : Representable u) (h : shift ≤ u.log2 - 52) :
    2 ^ shift ∣ u :=
  Nat.dvd_trans (Nat.pow_dvd_pow 2 h) (Nat.dvd_of_mod_eq_zero hu.2)

end RoundingLemmas

open RoundingLemmas

/-- A representable count below a count is not above its rounding. Where the rounding has fewer
places, the leading bit of the count lies between the two. -/
theorem le_roundUnits {u num : Nat} (hu : Representable u) (h : u ≤ num) :
    u ≤ roundUnits num 1 := by
  rw [roundUnits_one]
  by_cases hs : num.log2 - 52 ≤ u.log2 - 52
  · exact le_roundDiv_mul (pow_dvd_of_representable hu hs) h
  · have hn : num ≠ 0 := fun h0 => hs (by simp [h0])
    calc
      u ≤ 2 ^ (u.log2 + 1) := Nat.le_of_lt Nat.lt_log2_self
      _ ≤ 2 ^ num.log2 := Nat.pow_le_pow_right (by decide) (by omega)
      _ ≤ _ := le_roundDiv_mul (Nat.pow_dvd_pow 2 (Nat.sub_le _ _)) (Nat.log2_self_le hn)

/-- A representable count above a count is not below its rounding. -/
theorem roundUnits_le {u num : Nat} (hu : Representable u) (h : num ≤ u) :
    roundUnits num 1 ≤ u := by
  rw [roundUnits_one]
  have := log2_mono h
  exact roundDiv_mul_le (Nat.two_pow_pos _) (pow_dvd_of_representable hu (by omega)) h

/-- A rounding inside the range is representable: it has no more bits than the shift leaves, or it
is the next power of two. -/
theorem representable_roundUnits {num : Nat} (h : roundUnits num 1 < limit) :
    Representable (roundUnits num 1) := by
  refine ⟨h, Nat.mod_eq_zero_of_dvd ?_⟩
  rw [roundUnits_one]
  set shift := num.log2 - 52 with hshift
  set lead := roundDiv num (2 ^ shift) with hlead
  have small : lead ≤ 2 ^ 53 := by
    rw [hlead]
    by_cases hs : num.log2 ≤ 52
    · have h0 : shift = 0 := by omega
      have hd : roundDiv num (2 ^ 0) = num := by
        rw [roundDiv_of_dvd (Nat.two_pow_pos 0) (Nat.one_dvd num)]
        exact Nat.div_one num
      rw [h0, hd]
      exact Nat.le_trans (Nat.le_of_lt Nat.lt_log2_self)
        (Nat.pow_le_pow_right (by decide) (by omega))
    · refine Nat.le_trans (roundDiv_le _ _) (Nat.div_lt_of_lt_mul ?_)
      rw [← Nat.pow_add]
      have : shift + 53 = num.log2 + 1 := by omega
      rw [this]
      exact Nat.lt_log2_self
  rcases Nat.lt_or_eq_of_le small with hlt | heq
  · refine Nat.dvd_trans (Nat.pow_dvd_pow 2 ?_) (Nat.dvd_mul_left _ _)
    rcases Nat.eq_zero_or_pos (lead * 2 ^ shift) with h0 | hp
    · simp [h0]
    · have : (lead * 2 ^ shift).log2 < 53 + shift := by
        rw [Nat.log2_lt (by omega)]
        have := Nat.mul_lt_mul_of_pos_right hlt (Nat.two_pow_pos shift)
        rw [← Nat.pow_add] at this
        exact this
      omega
  · rw [heq, ← Nat.pow_add]
    have hl : (2 ^ (53 + shift)).log2 = 53 + shift := Nat.log2_two_pow
    rw [hl]
    exact Nat.pow_dvd_pow 2 (by omega)

/-- The largest count of 53 significant bits below a power of two has all of them set. -/
theorem le_of_lt_two_pow {u last : Nat} (hu : Representable u) (h : u < 2 ^ (53 + last)) :
    u ≤ (2 ^ 53 - 1) * 2 ^ last := by
  by_cases hs : last ≤ u.log2 - 52
  · obtain ⟨k, hk⟩ := pow_dvd_of_representable hu hs
    have hlt : 2 ^ last * k < 2 ^ last * 2 ^ 53 := by
      rw [← Nat.pow_add, ← hk, Nat.add_comm]
      exact h
    have hk' : k ≤ 2 ^ 53 - 1 := Nat.le_sub_one_of_lt (Nat.lt_of_mul_lt_mul_left hlt)
    calc
      u = k * 2 ^ last := by rw [hk, Nat.mul_comm]
      _ ≤ (2 ^ 53 - 1) * 2 ^ last := Nat.mul_le_mul_right _ hk'
  · calc
      u ≤ 2 ^ (u.log2 + 1) := Nat.le_of_lt Nat.lt_log2_self
      _ ≤ 2 ^ (52 + last) := Nat.pow_le_pow_right (by decide) (by omega)
      _ = 2 ^ 52 * 2 ^ last := Nat.pow_add 2 52 last
      _ ≤ (2 ^ 53 - 1) * 2 ^ last := Nat.mul_le_mul_right _ (by decide)

/-- One is a power of two with room for 53 bits on either side. -/
theorem exists_one_eq : ∃ last, one = 2 ^ last ∧ 52 ≤ last ∧ 2 ^ (53 + last) ≤ limit :=
  ⟨1074, by decide +kernel, by decide, by decide +kernel⟩

/-- The largest double is all ones up to the end of the range. -/
theorem exists_limit_eq :
    ∃ last, limit = 2 ^ (53 + last) ∧ (largest false).units = (2 ^ 53 - 1) * 2 ^ last :=
  ⟨2045, by decide +kernel, by decide +kernel⟩

theorem le_largest {u : Nat} (hu : Representable u) : u ≤ (largest false).units := by
  obtain ⟨last, range, top⟩ := exists_limit_eq
  rw [top]
  exact le_of_lt_two_pow hu (range ▸ hu.1)

/-! ## 2. Signed counts -/

namespace RoundingLemmas

theorem scaled_of_negative {x : Double} (h : x.negative = true) : x.scaled = -(x.units : Int) :=
  if_pos h

theorem scaled_of_positive {x : Double} (h : x.negative = false) : x.scaled = x.units :=
  if_neg fun ht => Bool.noConfusion (h.symm.trans ht)

theorem negative_ofRatio (negative : Bool) (num den : Nat) :
    (ofRatio negative num den).negative = negative := by
  unfold ofRatio ofRatio? ofUnits?
  split <;> rfl

theorem units_ofRatio {num : Nat} (negative : Bool) (h : Representable (roundUnits num 1)) :
    (ofRatio negative num 1).units = roundUnits num 1 := by
  unfold ofRatio ofRatio? ofUnits?
  rw [dif_pos h]
  rfl

theorem le_units_ofRatio {u num : Nat} (negative : Bool) (hu : Representable u) (h : u ≤ num) :
    u ≤ (ofRatio negative num 1).units := by
  unfold ofRatio ofRatio? ofUnits?
  split
  · exact le_roundUnits hu h
  · exact le_largest hu

theorem units_ofRatio_le {u num : Nat} (negative : Bool) (hu : Representable u) (h : num ≤ u) :
    (ofRatio negative num 1).units ≤ u := by
  have le := roundUnits_le hu h
  have inside : Representable (roundUnits num 1) :=
    representable_roundUnits (Nat.lt_of_le_of_lt le hu.1)
  rw [units_ofRatio negative inside]
  exact le

theorem scaled_ofScaled_of_nonneg {n : Int} (zeroSign : Bool) (h : 0 ≤ n) :
    (ofScaled zeroSign n).scaled = (ofRatio false n.natAbs 1).units := by
  have hn : ¬ n < 0 := Int.not_lt.mpr h
  unfold ofScaled
  by_cases h0 : n = 0
  · have hz (negative : Bool) : (ofRatio negative n.natAbs 1).units = 0 :=
      Nat.le_zero.mp (units_ofRatio_le negative representable_zero (Nat.le_of_eq (by rw [h0]; rfl)))
    rw [if_pos h0, hz false]
    cases zeroSign
    · rw [scaled_of_positive (negative_ofRatio _ _ _), hz]
    · rw [scaled_of_negative (negative_ofRatio _ _ _), hz]
      rfl
  · rw [if_neg h0, decide_eq_false hn, scaled_of_positive (negative_ofRatio _ _ _)]

theorem scaled_ofScaled_of_neg {n : Int} (zeroSign : Bool) (h : n < 0) :
    (ofScaled zeroSign n).scaled = -((ofRatio true n.natAbs 1).units : Int) := by
  unfold ofScaled
  rw [if_neg (Int.ne_of_lt h), decide_eq_true h, scaled_of_negative (negative_ofRatio _ _ _)]

end RoundingLemmas

open RoundingLemmas

/-- A double below a count is not above the double that is made of the count. Rounding keeps the
sign, so that only doubles of the sign of the count are compared with it. -/
theorem le_ofScaled {x : Double} {n : Int} (zeroSign : Bool) (h : x.scaled ≤ n) :
    x.scaled ≤ (ofScaled zeroSign n).scaled := by
  rcases Int.lt_or_le n 0 with hn | hn
  · rw [scaled_ofScaled_of_neg zeroSign hn]
    cases hx : x.negative with
    | false =>
      rw [scaled_of_positive hx] at h
      omega
    | true =>
      rw [scaled_of_negative hx] at h ⊢
      have := units_ofRatio_le true x.representable (by omega : n.natAbs ≤ x.units)
      omega
  · rw [scaled_ofScaled_of_nonneg zeroSign hn]
    cases hx : x.negative with
    | false =>
      rw [scaled_of_positive hx] at h ⊢
      have := le_units_ofRatio false x.representable (by omega : x.units ≤ n.natAbs)
      omega
    | true =>
      rw [scaled_of_negative hx]
      omega

/-- A double above a count is not below the double that is made of the count. -/
theorem ofScaled_le {x : Double} {n : Int} (zeroSign : Bool) (h : n ≤ x.scaled) :
    (ofScaled zeroSign n).scaled ≤ x.scaled := by
  rcases Int.lt_or_le n 0 with hn | hn
  · rw [scaled_ofScaled_of_neg zeroSign hn]
    cases hx : x.negative with
    | false =>
      rw [scaled_of_positive hx]
      omega
    | true =>
      rw [scaled_of_negative hx] at h ⊢
      have := le_units_ofRatio true x.representable (by omega : x.units ≤ n.natAbs)
      omega
  · rw [scaled_ofScaled_of_nonneg zeroSign hn]
    cases hx : x.negative with
    | false =>
      rw [scaled_of_positive hx] at h ⊢
      have := units_ofRatio_le false x.representable (by omega : n.natAbs ≤ x.units)
      omega
    | true =>
      rw [scaled_of_negative hx] at h ⊢
      have := units_ofRatio_le false x.representable (by omega : n.natAbs ≤ x.units)
      omega

/-- A representable count keeps its value. -/
theorem scaled_ofScaled {n : Int} (zeroSign : Bool) (h : Representable n.natAbs) :
    (ofScaled zeroSign n).scaled = n := by
  have exact (negative : Bool) : (ofRatio negative n.natAbs 1).units = n.natAbs :=
    Nat.le_antisymm (units_ofRatio_le negative h (Nat.le_refl _))
      (le_units_ofRatio negative h (Nat.le_refl _))
  rcases Int.lt_or_le n 0 with hn | hn
  · rw [scaled_ofScaled_of_neg zeroSign hn, exact]
    omega
  · rw [scaled_ofScaled_of_nonneg zeroSign hn, exact]
    omega

theorem scaled_neg (x : Double) : x.neg.scaled = -x.scaled := by
  cases hx : x.negative with
  | false =>
    have hn : x.neg.negative = true := congrArg (!·) hx
    rw [scaled_of_negative hn, scaled_of_positive hx]
    rfl
  | true =>
    have hn : x.neg.negative = false := congrArg (!·) hx
    rw [scaled_of_positive hn, scaled_of_negative hx, Int.neg_neg]
    rfl

/-- A sum with a number that is not negative is not below the other one. -/
theorem le_add {x y : Double} (h : 0 ≤ y.scaled) : x ≤ x.add y := by
  rw [le_iff, add]
  refine le_ofScaled _ ?_
  omega

/-- A difference with a number that is not negative is not above the other one. -/
theorem sub_le {x y : Double} (h : 0 ≤ y.scaled) : x.sub y ≤ x := by
  rw [le_iff, sub, add, scaled_neg]
  refine ofScaled_le _ ?_
  omega

/-- A number less itself is a zero. -/
theorem units_sub_self (x : Double) : (x.sub x).units = 0 := by
  have hz : x.scaled + x.neg.scaled = 0 := by
    rw [scaled_neg]
    omega
  unfold sub add ofScaled
  rw [hz]
  exact Nat.le_zero.mp (units_ofRatio_le _ representable_zero (Nat.le_refl 0))

theorem units_halved_pos : 0 < (halved 52).units := by decide +kernel

/-! ## 3. Integers between bounds -/

theorem one_pos : (0 : Int) < (one : Int) := by
  obtain ⟨last, unit, _⟩ := exists_one_eq
  rw [unit]
  exact Int.natCast_pos.mpr (Nat.two_pow_pos last)

/-- An integer that is not below the bound rounded up is a number not below the bound. -/
theorem le_toDouble_of_ceil_le {x : Double} {n : Int} (h : x.ceil ≤ n) :
    x ≤ (Number.integer n).toDouble := by
  have inside : x.scaled ≤ n * (one : Int) := by
    have := (Int.le_ediv_iff_mul_le one_pos).mp (Int.neg_le_neg_iff.mp (by
      rw [Int.neg_neg]
      exact h) : -n ≤ -x.scaled / (one : Int))
    rw [Int.neg_mul] at this
    omega
  rw [le_iff, Number.toDouble, ofInt]
  exact le_ofScaled false inside

/-- An integer that is not above the bound rounded down is a number not above the bound. -/
theorem toDouble_le_of_le_floor {x : Double} {n : Int} (h : n ≤ x.floor) :
    (Number.integer n).toDouble ≤ x := by
  rw [le_iff, Number.toDouble, ofInt]
  exact ofScaled_le false ((Int.le_ediv_iff_mul_le one_pos).mp h)

/-- Fifty-three bits at any place of the range are a count of a double. -/
theorem representable_mul_two_pow {n last : Nat} (h : n < 2 ^ 53)
    (range : 2 ^ (53 + last) ≤ limit) :
    Representable (n * 2 ^ last) := by
  have bits : n * 2 ^ last < 2 ^ (53 + last) := by
    rw [Nat.pow_add]
    exact Nat.mul_lt_mul_of_pos_right h (Nat.two_pow_pos last)
  refine ⟨Nat.lt_of_lt_of_le bits range, Nat.mod_eq_zero_of_dvd ?_⟩
  refine Nat.dvd_trans (Nat.pow_dvd_pow 2 ?_) (Nat.dvd_mul_left _ n)
  rcases Nat.eq_zero_or_pos (n * 2 ^ last) with h0 | hp
  · simp [h0]
  · have few : (n * 2 ^ last).log2 < 53 + last := (Nat.log2_lt (Nat.ne_of_gt hp)).mpr bits
    omega

/-- Whole numbers of 53 bits are doubles, and so is the first one after them. -/
theorem representable_mul_one {n : Nat} (h : n ≤ 2 ^ 53) : Representable (n * one) := by
  rcases Nat.eq_or_lt_of_le h with rfl | h
  · decide +kernel
  · obtain ⟨last, unit, _, range⟩ := exists_one_eq
    rw [unit]
    exact representable_mul_two_pow h range

/-- A count of so few ones keeps its value. -/
theorem scaled_ofScaled_mul_one (zeroSign : Bool) {n : Int} (h : n.natAbs ≤ 2 ^ 53) :
    (ofScaled zeroSign (n * one)).scaled = n * (one : Int) := by
  refine scaled_ofScaled zeroSign ?_
  rw [Int.natAbs_mul, Int.natAbs_natCast]
  exact representable_mul_one h

theorem scaled_ofInt {n : Nat} (h : n < 2 ^ 53) : (ofInt n).scaled = n * (one : Int) :=
  scaled_ofScaled_mul_one false (Nat.le_of_lt h)

theorem le_of_ofInt_le_ofInt {m n : Nat} (hm : m < 2 ^ 53) (hn : n < 2 ^ 53)
    (h : ofInt m ≤ ofInt n) : m ≤ n := by
  rw [le_iff, scaled_ofInt hm, scaled_ofInt hn] at h
  have pos := one_pos
  generalize (one : Int) = unit at h pos
  exact Int.ofNat_le.mp (Int.le_of_mul_le_mul_right h pos)

end Double

/-- Every number has the magnitude of itself. -/
theorem Number.close_self (n : Number) : n.close n = true := by
  rw [close, Double.units_sub_self]
  exact decide_eq_true Double.units_halved_pos

end DataContract
