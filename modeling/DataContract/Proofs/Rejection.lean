import Mathlib
import DataContract.Proofs.Candidates
import DataContract.Proofs.Refinement

/-!
# Mutants of one node

The mutants of a scalar, of a literal and of a list as such are scalars of another kind and values
one past a bound. What can be made of them does not fit the node that they were listed for.

1. `Schema.Simple`: what the author of a schema is asked for, so that a mutant has something to
   miss. There are no unions, and number bounds are integers small enough to be told from their
   neighbours.
2. `Double.SmallWhole.exists_ofDouble_sub_one`, `Double.SmallWhole.exists_ofDouble_add_one`: one
   past such a bound is another integer.
3. `Schema.string_refuses` and its like: one lemma for each kind of node.
4. `Schema.isNullable_of_accepts`: null fits only where the schema is nullable, so that it is never
   listed in vain.
-/

namespace DataContract

/-! ## 1. Simple schemas -/

/-- An integer of at most 53 bits. -/
def Double.SmallWhole (x : Double) : Prop := x.isWhole = true ∧ x.units < 2 ^ 53 * Double.one

instance (x : Double) : Decidable x.SmallWhole := inferInstanceAs (Decidable (_ ∧ _))

/-- Both bounds are integers of at most 53 bits, as far as they are there. -/
def NumberRange.SmallWhole (range : NumberRange) : Prop :=
  (∀ least, range.least = some least → least.SmallWhole) ∧
    ∀ most, range.most = some most → most.SmallWhole

instance (range : NumberRange) : Decidable range.SmallWhole :=
  inferInstanceAs (Decidable ((∀ least ∈ range.least, least.SmallWhole) ∧
    ∀ most ∈ range.most, most.SmallWhole))

namespace Schema

/-- No union and not the literal null. Names of fields are distinct without their marks, of which no
key has two, and number bounds are small integers. -/
def Simple : Schema → Prop
  | number range _ _ => range.SmallWhole
  | literal value _ => value.Distinct ∧ value.isNull = false
  | object fields _ => ((Fields.names fields).map Key.name).Nodup ∧
      ∀ key ∈ Fields.names fields, Key.isOptional (Key.name key) = false
  | union _ _ _ _ => False
  | _ => True

instance : DecidablePred Simple
  | .number range _ _ => inferInstanceAs (Decidable range.SmallWhole)
  | .literal value _ => inferInstanceAs (Decidable (value.Distinct ∧ value.isNull = false))
  | .object fields _ => inferInstanceAs (Decidable (((Fields.names fields).map Key.name).Nodup ∧
      ∀ key ∈ Fields.names fields, Key.isOptional (Key.name key) = false))
  | .union _ _ _ _ => .isFalse id
  | .string _ _ | .boolean _ | .null | .reference _ | .list _ _ _ => .isTrue trivial

end Schema

/-! ## 2. One past a bound -/

namespace Double

open RoundingLemmas

theorem SmallWhole.scaled {x : Double} (h : x.SmallWhole) :
    ∃ n : Int, x.scaled = n * (one : Int) ∧ n.natAbs < 2 ^ 53 := by
  obtain ⟨whole, few⟩ := h
  have whole : x.units % one = 0 := eq_of_beq whole
  obtain ⟨n, hn⟩ := Nat.dvd_of_mod_eq_zero whole
  rw [Nat.mul_comm] at hn
  have small : n < 2 ^ 53 := by
    rw [hn] at few
    exact Nat.lt_of_mul_lt_mul_right few
  cases hx : x.negative with
  | false =>
    refine ⟨n, ?_, small⟩
    rw [scaled_of_positive hx, hn, Int.natCast_mul]
  | true =>
    refine ⟨-n, ?_, by rwa [Int.natAbs_neg, Int.natAbs_natCast]⟩
    rw [scaled_of_negative hx, hn, Int.natCast_mul, Int.neg_mul]

theorem scaled_one : (ofInt 1).scaled = (one : Int) := by
  have := scaled_ofInt (n := 1) (by decide)
  rwa [Nat.cast_one, Int.one_mul] at this

theorem scaled_add_of_whole {x y : Double} {m n : Int} (hx : x.scaled = m * (one : Int))
    (hy : y.scaled = n * (one : Int)) (h : (m + n).natAbs ≤ 2 ^ 53) :
    (x.add y).scaled = (m + n) * (one : Int) := by
  rw [add, hx, hy, ← Int.add_mul]
  exact scaled_ofScaled_mul_one _ h

end Double

/-- A double that is a small integer becomes that integer. -/
theorem Number.ofDouble_eq_integer {x : Double} {n : Int} (h : x.scaled = n * (Double.one : Int))
    (small : n.natAbs ≤ 2 ^ 53) : ofDouble x = integer n := by
  have pos := Double.one_pos
  have magnitude : x.units = n.natAbs * Double.one := by
    have same := congrArg Int.natAbs h
    rw [Int.natAbs_mul, Int.natAbs_natCast] at same
    rw [← same]
    cases hx : x.negative with
    | false => rw [Double.RoundingLemmas.scaled_of_positive hx, Int.natAbs_natCast]
    | true => rw [Double.RoundingLemmas.scaled_of_negative hx, Int.natAbs_neg, Int.natAbs_natCast]
  have whole : x.isWhole = true := by
    rw [Double.isWhole, magnitude, Nat.mul_mod_left]
    rfl
  have floor : x.floor = n := by
    rw [Double.floor, h]
    generalize (Double.one : Int) = unit at pos
    exact Int.mul_ediv_cancel n (Int.ne_of_gt pos)
  have least : minSigned ≤ n := by
    unfold minSigned
    omega
  have most : n ≤ maxSigned := by
    unfold maxSigned
    omega
  rw [ofDouble, whole, floor, if_pos (by simp; omega), clampSigned]
  congr 1
  omega

namespace Double.SmallWhole

variable {x : Double} (h : x.SmallWhole)
include h

/-- One less than a small integer is an integer below it. -/
theorem exists_ofDouble_sub_one : ∃ n : Int, Number.ofDouble (x.sub (ofInt 1)) = .integer n ∧
    n.natAbs ≤ 2 ^ 53 ∧ (Number.integer n).toDouble < x := by
  obtain ⟨n, hn, few⟩ := h.scaled
  have one : (ofInt 1).neg.scaled = -1 * (Double.one : Int) := by
    rw [scaled_neg, scaled_one, Int.neg_mul, Int.one_mul]
  have small : (n + -1).natAbs ≤ 2 ^ 53 := by omega
  have less : (x.sub (ofInt 1)).scaled = (n + -1) * (Double.one : Int) :=
    scaled_add_of_whole hn one small
  refine ⟨n + -1, Number.ofDouble_eq_integer less small, small, ?_⟩
  have pos := one_pos
  rw [lt_iff, Number.toDouble, ofInt, scaled_ofScaled_mul_one false small, hn]
  exact Int.mul_lt_mul_of_pos_right (by omega) pos

/-- One more than a small integer is an integer above it. -/
theorem exists_ofDouble_add_one : ∃ n : Int, Number.ofDouble (x.add (ofInt 1)) = .integer n ∧
    n.natAbs ≤ 2 ^ 53 ∧ x < (Number.integer n).toDouble := by
  obtain ⟨n, hn, few⟩ := h.scaled
  have one : (ofInt 1).scaled = 1 * (Double.one : Int) := by rw [scaled_one, Int.one_mul]
  have small : (n + 1).natAbs ≤ 2 ^ 53 := by omega
  have more : (x.add (ofInt 1)).scaled = (n + 1) * (Double.one : Int) :=
    scaled_add_of_whole hn one small
  refine ⟨n + 1, Number.ofDouble_eq_integer more small, small, ?_⟩
  have pos := one_pos
  rw [lt_iff, Number.toDouble, ofInt, scaled_ofScaled_mul_one false small, hn]
  exact Int.mul_lt_mul_of_pos_right (by omega) pos

end Double.SmallWhole

namespace Schema

/-- Bounds that are small integers lie among the signed 64-bit integers. -/
theorem Simple.plain {schema : Schema} (simple : schema.Simple) : schema.Plain := by
  cases schema with
  | number range fractional sample =>
    have signed {x : Double} (h : x.SmallWhole) : x.InSigned := by
      obtain ⟨n, hn, few⟩ := h.scaled
      have least : Number.minSigned ≤ n := by
        unfold Number.minSigned
        omega
      have most : n ≤ Number.maxSigned := by
        unfold Number.maxSigned
        omega
      unfold Double.InSigned
      rw [hn]
      exact ⟨Int.mul_le_mul_of_nonneg_right least (Int.le_of_lt Double.one_pos),
        Int.mul_le_mul_of_nonneg_right most (Int.le_of_lt Double.one_pos)⟩
    exact ⟨⟨fun least hl => signed (simple.1 least hl), fun most hm => signed (simple.2 most hm)⟩,
      trivial⟩
  | literal value title => exact ⟨simple.1, trivial⟩
  | object fields title => exact simple
  | union members key title sample => exact simple.elim
  | _ => exact ⟨trivial, trivial⟩

/-! ## 3. Data of another kind -/

section Kinds

variable {context : Context} (empty : context.dictionary = []) {value : Value}
include empty

theorem Makes.null_inv (made : Makes context Schema.null value) : value = .null := by
  cases made with
  | null => rfl
  | taken source _ => exact (not_taken rfl empty source).elim

theorem Makes.text_inv (made : Makes context text value) : ∃ text, value = .string text := by
  cases made with
  | string _ => exact ⟨_, rfl⟩
  | taken source _ => exact (not_taken rfl empty source).elim

theorem Makes.numeric_inv (made : Makes context numeric value) : ∃ n, value = .number n := by
  cases made with
  | number _ => exact ⟨_, rfl⟩
  | taken source _ => exact (not_taken rfl empty source).elim

theorem Makes.flag_inv (made : Makes context flag value) : ∃ b, value = .boolean b := by
  cases made with
  | boolean => exact ⟨_, rfl⟩
  | taken source _ => exact (not_taken rfl empty source).elim

theorem Makes.exactly_inv {model : Value} (made : Makes context (exactly model) value) :
    value = model := by
  cases made with
  | literal => rfl
  | taken source _ => exact (not_taken rfl empty source).elim

theorem Makes.bare_inv {title : Option String} (made : Makes context (.object [] title) value) :
    value = .object [] := by
  cases made with
  | @object _ _ entries origin source _ _ =>
    cases entries with
    | nil => rfl
    | cons entry _ => cases (source entry.1 List.mem_cons_self).1
  | taken source _ => exact (not_taken rfl empty source).elim

end Kinds

section Refuses

variable {context : Context} (empty : context.dictionary = []) {mutant : Schema} {value : Value}
include empty

theorem string_refuses {range : LengthRange} {sample : Option String}
    (listed : mutant ∈ range.mutants) (made : Makes context mutant value) :
    ¬Accepts context.registry context.keyPolicy (.string range sample) value := by
  intro fits
  cases fits with
  | @string _ _ content inside =>
    have other {count : Nat} (same : Value.string content = letters count) :
        content.toList.length = count := by
      rw [letters, Value.string.injEq] at same
      rw [same, String.toList_ofList, List.length_replicate]
    rcases mem_lengthMutants listed with kind | ⟨least, bound, pos, rfl⟩ | ⟨most, bound, rfl⟩
    · simp only [List.mem_cons, List.not_mem_nil, or_false] at kind
      rcases kind with rfl | rfl | rfl
      · cases made.null_inv empty
      · obtain ⟨_, same⟩ := made.numeric_inv empty
        cases same
      · obtain ⟨_, same⟩ := made.flag_inv empty
        cases same
    · have short := other (made.exactly_inv empty)
      have := inside.1 least bound
      omega
    · have long := other (made.exactly_inv empty)
      have := inside.2 most bound
      omega

theorem number_refuses {range : NumberRange} {fractional : Bool} {sample : Option String}
    (small : range.SmallWhole) (listed : mutant ∈ range.mutants)
    (made : Makes context mutant value) :
    ¬Accepts context.registry context.keyPolicy (.number range fractional sample) value := by
  intro fits
  cases fits with
  | @number _ _ _ n inside =>
    rcases mem_numberMutants listed with kind | ⟨least, bound, rfl⟩ | ⟨most, bound, rfl⟩
    · simp only [List.mem_cons, List.not_mem_nil, or_false] at kind
      rcases kind with rfl | rfl | rfl
      · cases made.null_inv empty
      · obtain ⟨_, same⟩ := made.text_inv empty
        cases same
      · obtain ⟨_, same⟩ := made.flag_inv empty
        cases same
    · have same := made.exactly_inv empty
      rw [Value.number.injEq] at same
      obtain ⟨k, one, _, less⟩ := (small.1 least bound).exists_ofDouble_sub_one
      have le := inside.1 least bound
      rw [same, one, Double.le_iff] at le
      rw [Double.lt_iff] at less
      omega
    · have same := made.exactly_inv empty
      rw [Value.number.injEq] at same
      obtain ⟨k, one, _, more⟩ := (small.2 most bound).exists_ofDouble_add_one
      have le := inside.2 most bound
      rw [same, one, Double.le_iff] at le
      rw [Double.lt_iff] at more
      omega

theorem boolean_refuses {sample : Option String} (listed : mutant ∈ [null, numeric, text])
    (made : Makes context mutant value) :
    ¬Accepts context.registry context.keyPolicy (.boolean sample) value := by
  intro fits
  cases fits
  simp only [List.mem_cons, List.not_mem_nil, or_false] at listed
  rcases listed with rfl | rfl | rfl
  · cases made.null_inv empty
  · obtain ⟨_, same⟩ := made.numeric_inv empty
    cases same
  · obtain ⟨_, same⟩ := made.text_inv empty
    cases same

theorem list_refuses {item : Schema} {title sample : Option String}
    (listed : mutant ∈ [null, text, numeric, flag]) (made : Makes context mutant value) :
    ¬Accepts context.registry context.keyPolicy (.list item title sample) value := by
  intro fits
  cases fits
  simp only [List.mem_cons, List.not_mem_nil, or_false] at listed
  rcases listed with rfl | rfl | rfl | rfl
  · cases made.null_inv empty
  · obtain ⟨_, same⟩ := made.text_inv empty
    cases same
  · obtain ⟨_, same⟩ := made.numeric_inv empty
    cases same
  · obtain ⟨_, same⟩ := made.flag_inv empty
    cases same

theorem literal_refuses {expected : Value} {title : Option String}
    (listed : mutant ∈ expected.mutants) (made : Makes context mutant value) :
    ¬Accepts context.registry context.keyPolicy (.literal expected title) value := by
  intro fits
  cases fits with
  | literal same =>
    have null : mutant = Schema.null → value = .null := by
      rintro rfl
      exact made.null_inv empty
    have text : mutant = Schema.text → ∃ text, value = .string text := by
      rintro rfl
      exact made.text_inv empty
    have numeric : mutant = Schema.numeric → ∃ n, value = .number n := by
      rintro rfl
      exact made.numeric_inv empty
    have flag : mutant = Schema.flag → ∃ b, value = .boolean b := by
      rintro rfl
      exact made.flag_inv empty
    cases expected with
    | null => cases listed
    | _ =>
      simp only [Value.mutants, List.mem_cons, List.not_mem_nil, or_false] at listed
      grind [Value.sameLiteral, Value.same]

end Refuses

/-! ## 4. Null -/

/-- Null fits only where references lead to null in the end. -/
theorem follows_null_of_accepts {registry : Registry} {policy : KeyPolicy}
    (registered : registry.Everywhere Simple) {schema : Schema} (simple : schema.Everywhere Simple)
    (fits : Accepts registry policy schema .null) : registry.Follows schema null := by
  generalize hv : Value.null = value at fits
  induction fits with
  | null => exact .here
  | reference found _ ih => exact .step found (ih (registered.target found) hv)
  | @literal expected _ _ same =>
    subst hv
    have null : expected.isNull = true := by
      cases expected <;> first | rfl | simp [Value.sameLiteral, Value.same] at same
    exact Bool.noConfusion (null.symm.trans simple.here.2)
  | union => exact simple.here.elim
  | _ => cases hv

/-- Null fits only where the schema is nullable. -/
theorem isNullable_of_accepts {registry : Registry} (guarded : registry.Guarded)
    {policy : KeyPolicy}
    (registered : registry.Everywhere Simple) {schema : Schema} (simple : schema.Everywhere Simple)
    (fits : Accepts registry policy schema .null) : registry.isNullable schema = true := by
  have chain := follows_null_of_accepts registered simple fits
  unfold Registry.isNullable
  rw [Registry.resolve_of_follows guarded chain nofun]

end Schema

end DataContract
