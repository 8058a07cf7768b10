import Mathlib
import DataContract.Proofs.Drawing

/-!
# Whole numbers that are made

The bounds of a number are doubles of any size; a whole number that is made is a signed 64-bit
integer. Bounds are read exactly here, as rationals, so that nothing is rounded on the way from a
bound to an integer.

1. `Double.ceil_toRat`, `Double.floor_toRat`: what the model computes are the ceiling and the floor
   of the rational. `NumberRange.holds_iff` says of integers what it means to satisfy the bounds.
2. `NumberRange.ends_generate_whole`: what is drawn, and when the range is refused.
3. `NumberRange.holds_of_within`, `NumberRange.not_holds_of_crossed`: the clamped ends that are
   drawn between lose no integer and add none, as long as the range is within reach.
4. `Schema.generate_whole`: the result of a generation, for every range and whatever is drawn.

It is false to expect that a range is refused whenever no signed 64-bit integer satisfies it. A
bound that no such integer satisfies is moved to the nearest one, and that integer is made
(`misses_tooLarge`).
-/

namespace DataContract

open Gen

/-! ## 1. Bounds as rationals -/

namespace Double

/-- The number itself, without rounding. -/
def toRat (x : Double) : ℚ := x.scaled / one

theorem ceil_toRat (x : Double) : ⌈x.toRat⌉ = x.ceil := Rat.ceil_intCast_div_natCast x.scaled one

theorem floor_toRat (x : Double) : ⌊x.toRat⌋ = x.floor := Rat.floor_intCast_div_natCast x.scaled one

theorem toRat_le_iff {x y : Double} : x.toRat ≤ y.toRat ↔ x ≤ y := by
  have pos : (0 : ℚ) < one := Nat.cast_pos.mpr (Int.natCast_pos.mp one_pos)
  rw [toRat, toRat, div_le_div_iff_of_pos_right pos, Int.cast_le, le_iff]

theorem ceil_le_iff {x : Double} {n : Int} : x.ceil ≤ n ↔ x.toRat ≤ n := by
  rw [← ceil_toRat, Int.ceil_le]

theorem le_floor_iff {x : Double} {n : Int} : n ≤ x.floor ↔ (n : ℚ) ≤ x.toRat := by
  rw [← floor_toRat, Int.le_floor]

end Double

/-- The integer is among those of 64 bits with a sign. -/
def Number.IsSigned (n : Int) : Prop := minSigned ≤ n ∧ n ≤ maxSigned

namespace NumberRange

/-- The integer satisfies both bounds. -/
def Holds (range : NumberRange) (n : Int) : Prop :=
  (∀ least, range.least = some least → least.toRat ≤ n) ∧
    ∀ most, range.most = some most → (n : ℚ) ≤ most.toRat

/-- The bounds do not contradict each other as numbers. -/
def Ordered (range : NumberRange) : Prop :=
  ∀ least most, range.least = some least → range.most = some most → least.toRat ≤ most.toRat

/-- Every signed 64-bit integer is too small. -/
def Above (range : NumberRange) : Prop :=
  ∃ least, range.least = some least ∧ (Number.maxSigned : ℚ) < least.toRat

/-- Every signed 64-bit integer is too large. -/
def Below (range : NumberRange) : Prop :=
  ∃ most, range.most = some most ∧ most.toRat < (Number.minSigned : ℚ)

theorem holds_iff {range : NumberRange} {n : Int} :
    range.Holds n ↔ (∀ least, range.least = some least → least.ceil ≤ n) ∧
      ∀ most, range.most = some most → n ≤ most.floor := by
  simp only [Holds, Double.ceil_le_iff, Double.le_floor_iff]

/-! ## 2. What is drawn -/

/-- A whole number is drawn between the clamped ends, or the range is refused: where the bounds are
out of order, and where the ends are. -/
theorem ends_generate_whole (range : NumberRange) :
    (range.generate false).Ends
      (fun value => ∃ n, value = .integer n ∧ range.Ordered ∧
        range.integers.1 ≤ n ∧ n ≤ range.integers.2)
      (fun halt => (∃ reason, halt = .error (.invalid reason)) ∧
        (range.Ordered → range.integers.2 < range.integers.1)) := by
  unfold generate
  extract_lets drawn
  have right (ordered : range.Ordered) : (drawn ()).Ends
      (fun value => ∃ n, value = .integer n ∧ range.Ordered ∧
        range.integers.1 ≤ n ∧ n ≤ range.integers.2)
      (fun halt => (∃ reason, halt = .error (.invalid reason)) ∧
        (range.Ordered → range.integers.2 < range.integers.1)) := by
    simp only [drawn, Bool.false_eq_true, if_false]
    refine ends_guard (fun crossed => ⟨⟨_, rfl⟩, fun _ => crossed⟩) fun le => ?_
    refine ends_bind (ends_draw fun rng => ends_pure ⟨_, rfl, ordered, ?_⟩)
    exact drawInteger_mem (Int.not_lt.mp le) (range.least.isSome && range.most.isSome) rng
  split
  · next least most hl hm =>
    refine ends_guard (fun crossed => ⟨⟨_, rfl⟩, fun ordered => ?_⟩) fun le => right ?_
    · exact absurd (Double.toRat_le_iff.mp (ordered least most hl hm)) (Int.not_le.mpr crossed)
    · intro x y hx hy
      cases hl.symm.trans hx
      cases hm.symm.trans hy
      exact Double.toRat_le_iff.mpr (Int.not_lt.mp le)
  · next other => exact right fun x y hx hy => (other x y hx hy).elim

/-! ## 3. The ends -/

section Ends

variable {range : NumberRange} {n : Int}

theorem isSigned_of_within (h : range.integers.1 ≤ n ∧ n ≤ range.integers.2) :
    Number.IsSigned n := by
  obtain ⟨least, most⟩ := range
  unfold integers Number.clampSigned defaultSpan at h
  unfold Number.IsSigned Number.minSigned Number.maxSigned at *
  cases least <;> cases most <;> simp only [Option.map_some, Option.map_none] at h <;> omega

/-- Between the ends every integer satisfies the bounds that are within reach. -/
theorem holds_of_within (above : ¬range.Above) (below : ¬range.Below)
    (h : range.integers.1 ≤ n ∧ n ≤ range.integers.2) : range.Holds n := by
  obtain ⟨least, most⟩ := range
  refine holds_iff.mpr ⟨?_, ?_⟩
  · rintro x rfl
    have reach : x.ceil ≤ Number.maxSigned :=
      Double.ceil_le_iff.mpr (not_lt.mp fun h => above ⟨x, rfl, h⟩)
    have inside : Number.clampSigned x.ceil ≤ n := by cases most <;> exact h.1
    unfold Number.clampSigned at inside
    omega
  · rintro x rfl
    have reach : Number.minSigned ≤ x.floor :=
      Double.le_floor_iff.mpr (not_lt.mp fun h => below ⟨x, rfl, h⟩)
    have inside : n ≤ Number.clampSigned x.floor := by cases least <;> exact h.2
    unfold Number.clampSigned at inside
    omega

/-- Where the ends have crossed, no integer of 64 bits satisfies the bounds. -/
theorem not_holds_of_crossed (crossed : range.integers.2 < range.integers.1)
    (signed : Number.IsSigned n) : ¬range.Holds n := by
  obtain ⟨least, most⟩ := range
  intro holds
  obtain ⟨low, high⟩ := holds_iff.mp holds
  unfold integers Number.clampSigned defaultSpan at crossed
  unfold Number.IsSigned Number.minSigned Number.maxSigned at *
  cases least with
  | none => cases most <;> simp only [Option.map_some, Option.map_none] at crossed <;> omega
  | some x =>
    have := low x rfl
    cases most with
    | none => simp only [Option.map_some, Option.map_none] at crossed; omega
    | some y =>
      have := high y rfl
      simp only [Option.map_some] at crossed
      omega

theorem not_holds_of_not_ordered (h : ¬range.Ordered) : ¬range.Holds n :=
  fun holds => h fun least most hl hm => (holds.1 least hl).trans (holds.2 most hm)

/-- A range above the signed integers is moved to the greatest of them. -/
theorem integers_of_above (ordered : range.Ordered) (above : range.Above) :
    range.integers = (Number.maxSigned, Number.maxSigned) := by
  obtain ⟨least, most⟩ := range
  obtain ⟨x, rfl, beyond⟩ := above
  have low : Number.maxSigned < x.ceil :=
    not_le.mp fun h => not_lt.mpr (Double.ceil_le_iff.mp h) beyond
  cases most with
  | none =>
    unfold integers Number.clampSigned Number.minSigned Number.maxSigned defaultSpan at *
    simp only [Option.map_some, Option.map_none, Prod.mk.injEq]
    omega
  | some y =>
    have high : Number.maxSigned ≤ y.floor :=
      Double.le_floor_iff.mpr (beyond.le.trans (ordered x y rfl rfl))
    unfold integers Number.clampSigned Number.minSigned Number.maxSigned at *
    simp only [Option.map_some, Prod.mk.injEq]
    omega

/-- A range below the signed integers is moved to the least of them. -/
theorem integers_of_below (ordered : range.Ordered) (below : range.Below) :
    range.integers = (Number.minSigned, Number.minSigned) := by
  obtain ⟨least, most⟩ := range
  obtain ⟨y, rfl, beyond⟩ := below
  have high : y.floor < Number.minSigned :=
    not_le.mp fun h => not_lt.mpr (Double.le_floor_iff.mp h) beyond
  cases least with
  | none =>
    unfold integers Number.clampSigned Number.minSigned Number.maxSigned defaultSpan at *
    simp only [Option.map_some, Option.map_none, Prod.mk.injEq]
    omega
  | some x =>
    have low : x.ceil ≤ Number.minSigned :=
      Double.ceil_le_iff.mpr ((ordered x y rfl rfl).trans beyond.le)
    unfold integers Number.clampSigned Number.minSigned Number.maxSigned at *
    simp only [Option.map_some, Prod.mk.injEq]
    omega

/-- Where the ends are one integer, that one is made. -/
theorem generate_of_single {only : Int} (ordered : range.Ordered)
    (single : range.integers = (only, only)) (rng : Rng) :
    ((range.generate false).runFrom rng).1 = .ok (.integer only) := by
  have drawn := range.ends_generate_whole rng
  rw [single] at drawn
  generalize ((range.generate false).runFrom rng).1 = made at drawn ⊢
  cases made with
  | error halt => exact absurd (drawn.2 ordered) (lt_irrefl only)
  | ok value =>
    obtain ⟨n, rfl, _, low, high⟩ := drawn
    rw [le_antisymm high low]

end Ends

end NumberRange

/-! ## 4. Every range -/

/-- A number without an example is made of its range, in any context. -/
theorem Schema.generate_number (context : Context) (range : NumberRange) (fractional : Bool) :
    (number range fractional none).generate context = range.generate fractional := by
  obtain ⟨fuel, steps⟩ : ∃ fuel,
      (number range fractional none).expansionBudget context.registry = fuel + 1 :=
    Nat.exists_eq_succ_of_ne_zero (Nat.mul_ne_zero (Nat.succ_ne_zero _) (Nat.succ_ne_zero _))
  rw [generate, steps]
  rfl

/-- Whole numbers, whatever is drawn. A range within reach of the signed 64-bit integers gives one
that satisfies the bounds, and is refused exactly when there is none. A range beyond them gives the
one next to it. -/
theorem Schema.generate_whole (context : Context) (range : NumberRange) (rng : Rng) :
    let made := (((number range false none).generate context).runFrom rng).1
    (¬(range.Ordered ∧ (range.Above ∨ range.Below)) →
      (∃ n, made = .ok (.integer n) ∧ Number.IsSigned n ∧ range.Holds n) ∨
      ((∃ reason, made = .error (.error (.invalid reason))) ∧
        ∀ n, Number.IsSigned n → ¬range.Holds n)) ∧
    (range.Ordered → range.Above → made = .ok (.integer Number.maxSigned)) ∧
    (range.Ordered → range.Below → made = .ok (.integer Number.minSigned)) := by
  intro made
  have same : made = ((range.generate false).runFrom rng).1 := by
    simp only [made, generate_number]
  rw [same]
  refine ⟨fun reach => ?_,
    fun ordered above =>
      NumberRange.generate_of_single ordered (NumberRange.integers_of_above ordered above) rng,
    fun ordered below =>
      NumberRange.generate_of_single ordered (NumberRange.integers_of_below ordered below) rng⟩
  have drawn := range.ends_generate_whole rng
  generalize ((range.generate false).runFrom rng).1 = made at drawn ⊢
  cases made with
  | error halt =>
    obtain ⟨⟨reason, rfl⟩, crossed⟩ := drawn
    refine .inr ⟨⟨reason, rfl⟩, fun n signed holds => ?_⟩
    by_cases ordered : range.Ordered
    · exact NumberRange.not_holds_of_crossed (crossed ordered) signed holds
    · exact NumberRange.not_holds_of_not_ordered ordered holds
  | ok value =>
    obtain ⟨n, rfl, ordered, within⟩ := drawn
    refine .inl ⟨n, rfl, NumberRange.isSigned_of_within within, ?_⟩
    exact NumberRange.holds_of_within (fun above => reach ⟨ordered, .inl above⟩)
      (fun below => reach ⟨ordered, .inr below⟩) within

/-- From the greatest double that is a signed 64-bit integer on. -/
def largeWhole : NumberRange := ⟨some (.ofInt 9223372036854774784), none⟩

/-- The range is within reach, so a number is made that satisfies it. -/
theorem generate_largeWhole :
    ¬(largeWhole.Ordered ∧ (largeWhole.Above ∨ largeWhole.Below)) ∧
      ∃ n, (((Schema.number largeWhole false none).generate (.ofRegistry .initial)).runFrom
          (.ofSeed 7)).1 = .ok (.integer n) ∧ Number.IsSigned n ∧ largeWhole.Holds n := by
  have bound : (Double.ofInt 9223372036854774784).toRat ≤ (Number.maxSigned : ℚ) :=
    Double.ceil_le_iff.mp (by decide +kernel)
  have reach : ¬(largeWhole.Ordered ∧ (largeWhole.Above ∨ largeWhole.Below)) := by
    rintro ⟨_, ⟨least, same, beyond⟩ | ⟨most, none, _⟩⟩
    · obtain rfl := Option.some.inj same
      exact not_le.mpr beyond bound
    · cases none
  have holds : largeWhole.Holds Number.maxSigned := by
    refine ⟨fun least same => ?_, fun most none => ?_⟩
    · obtain rfl := Option.some.inj same
      exact bound
    · cases none
  have told := (Schema.generate_whole (.ofRegistry .initial) largeWhole (.ofSeed 7)).1 reach
  exact ⟨reach, told.resolve_right fun refused =>
    refused.2 Number.maxSigned ⟨by decide, le_refl _⟩ holds⟩

/-- Numbers that no signed 64-bit integer reaches. -/
def tooLarge : NumberRange :=
  ⟨some (.ofInt 10000000000000000000), some (.ofInt 100000000000000000000)⟩

/-- The range is not refused, although no signed 64-bit integer satisfies it; the greatest of them
is made. -/
theorem misses_tooLarge :
    (((Schema.number tooLarge false none).generate (.ofRegistry .initial)).runFrom (.ofSeed 0)).1 =
        .ok (.integer 9223372036854775807) ∧
      ∀ n, Number.IsSigned n → ¬tooLarge.Holds n := by
  have above : tooLarge.Above :=
    ⟨_, rfl, not_le.mp fun h => absurd (Double.ceil_le_iff.mpr h) (by decide +kernel)⟩
  have ordered : tooLarge.Ordered := by
    intro least most hl hm
    obtain rfl := Option.some.inj hl
    obtain rfl := Option.some.inj hm
    exact Double.toRat_le_iff.mpr (by decide +kernel)
  refine ⟨?_, fun n signed holds => ?_⟩
  · rw [Schema.generate_number]
    exact NumberRange.generate_of_single ordered (NumberRange.integers_of_above ordered above) _
  · obtain ⟨least, same, beyond⟩ := above
    have reached : least.toRat ≤ (Number.maxSigned : ℚ) :=
      (holds.1 least same).trans (Int.cast_le.mpr signed.2)
    exact not_le.mpr beyond reached

end DataContract
