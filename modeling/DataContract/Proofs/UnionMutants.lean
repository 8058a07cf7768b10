import Mathlib
import DataContract.Proofs.NullMutants
import DataContract.Proofs.Rejection
import DataContract.Proofs.ScalarCover

/-!
# What a union keeps of its mutants

A union drops a scalar from its mutants when an alternative covers it, that is, when all its values
are accepted. An alternative that accepts some of its values and not the others leaves the scalar
where it is, and the values that it accepts are then made for a negative test. Two such alternatives
may even accept all values between them, as the literals true and false do.

1. `Schema.exists_fronts_of_accepts`: what fits a schema fits one in front of it that is neither a
   reference nor a union.
2. `Schema.stock_of_mem_mutantsWithin`: the scalars among mutants are of a few kinds. The exact
   values among them are covered by whatever accepts them.
3. `Schema.overlaps`: the schemas that accept a part of such a scalar.
   `Schema.accepts_scalarMutant_iff`: a value that is made for a scalar among the mutants of a union
   is accepted exactly where a schema in front overlaps the scalar and accepts the value.
-/

namespace DataContract
namespace Schema

/-! ## 1. Fits in front -/

/-- What fits a schema fits one in front of it that is neither a reference nor a union. -/
theorem exists_fronts_of_accepts {registry : Registry} {policy : KeyPolicy} {start schema : Schema}
    {value : Value} (front : Fronts registry start schema)
    (fits : Accepts registry policy schema value) :
    ∃ leaf, Fronts registry start leaf ∧ leaf.Concrete ∧ Accepts registry policy leaf value := by
  induction fits with
  | reference found _ ih => exact ih (front.target found)
  | union hm _ ih => exact ih (front.member hm)
  | string inside => exact ⟨_, front, trivial, .string inside⟩
  | number inside => exact ⟨_, front, trivial, .number inside⟩
  | boolean => exact ⟨_, front, trivial, .boolean⟩
  | null => exact ⟨_, front, trivial, .null⟩
  | literal same => exact ⟨_, front, trivial, .literal same⟩
  | object allowed fits _ => exact ⟨_, front, trivial, .object allowed fits⟩
  | list fits _ => exact ⟨_, front, trivial, .list fits⟩

/-- What fits a schema fits every schema that it is in front of. -/
theorem accepts_of_fronts {registry : Registry} {policy : KeyPolicy} {start schema : Schema}
    {value : Value} (front : Fronts registry start schema)
    (fits : Accepts registry policy schema value) : Accepts registry policy start value := by
  induction front with
  | self => exact fits
  | member _ hm ih => exact ih (.union hm fits)
  | target _ found ih => exact ih (.reference found fits)

/-- In front of a union stand the schemas in front of its members. -/
theorem Fronts.member_of_concrete {registry : Registry} {members : List Schema}
    {key title sample : Option String} {leaf : Schema}
    (front : Fronts registry (union members key title sample) leaf) (concrete : leaf.Concrete) :
    ∃ schema ∈ members, Fronts registry schema leaf := by
  have split : leaf = union members key title sample ∨
      ∃ schema ∈ members, Fronts registry schema leaf := by
    clear concrete
    induction front with
    | self => exact .inl rfl
    | member _ hm ih =>
      rcases ih with ⟨rfl, rfl, rfl, rfl⟩ | ⟨schema, hs, front⟩
      · exact .inr ⟨_, hm, .self⟩
      · exact .inr ⟨schema, hs, front.member hm⟩
    | target _ found ih =>
      obtain ⟨schema, hs, front⟩ := ih.resolve_left nofun
      exact .inr ⟨schema, hs, front.target found⟩
  refine split.resolve_left ?_
  rintro rfl
  exact concrete

/-! ## 2. The scalars that are offered -/

/-- The scalars among mutants. -/
inductive Stock : Schema → Prop
  | null : Stock null
  | text : Stock text
  | numeric : Stock numeric
  | flag : Stock flag
  | exactly (value : Value) : Stock (exactly value)

theorem stock_kinds : ∀ schema ∈ [null, text, numeric, flag], Stock schema := by
  simp only [List.forall_mem_cons]
  exact ⟨.null, .text, .numeric, .flag, List.forall_mem_nil _⟩

theorem stock_lengthMutants (range : LengthRange) : ∀ schema ∈ range.mutants, Stock schema := by
  intro schema listed
  rcases mem_lengthMutants listed with kind | ⟨least, _, _, rfl⟩ | ⟨most, _, rfl⟩
  · exact stock_kinds schema (by grind)
  · exact .exactly _
  · exact .exactly _

theorem stock_numberMutants (range : NumberRange) : ∀ schema ∈ range.mutants, Stock schema := by
  intro schema listed
  rcases mem_numberMutants listed with kind | ⟨least, _, rfl⟩ | ⟨most, _, rfl⟩
  · exact stock_kinds schema (by grind)
  · exact .exactly _
  · exact .exactly _

theorem stock_valueMutants (value : Value) : ∀ schema ∈ value.mutants, Stock schema := by
  have kinds (schemas : List Schema) (h : schemas ⊆ [null, text, numeric, flag]) :
      ∀ schema ∈ schemas, Stock schema := fun schema hs => stock_kinds schema (h hs)
  cases value <;> exact kinds _ (by simp [Value.mutants])

theorem stock_of_mem_scalars {schemas : List Schema} (stock : ∀ schema ∈ schemas, Stock schema)
    {outcome : Outcome Schema}
    (listed : outcome ∈ (Enumeration.ofList (schemas.map Outcome.pure)).toList) {candidate : Schema}
    (valued : outcome.value? = some candidate) : Stock candidate := by
  rw [Enumeration.toList_ofList, List.mem_map] at listed
  obtain ⟨schema, hs, rfl⟩ := listed
  cases valued
  exact stock _ hs

/-- Every scalar among mutants is of the stock. The induction is on the steps: references and unions
pass the mutants of other schemas on, and what objects and lists make of the mutants of their parts
is no scalar. -/
theorem stock_of_mem_mutantsWithin {fuel : Nat} {context : Context} {row : Row} {schema : Schema}
    {outcome : Outcome Schema} {candidate : Schema}
    (listed : outcome ∈ (mutantsWithin fuel context row schema).toList)
    (valued : outcome.value? = some candidate) (scalar : candidate.isScalar = true) :
    Stock candidate := by
  have failed {outcome halt : Outcome Schema} (none : halt.value? = none)
      (listed : outcome ∈ (Enumeration.single halt).toList)
      (valued : outcome.value? = some candidate) : Stock candidate := by
    rw [Enumeration.mem_toList_single] at listed
    rw [listed, none] at valued
    cases valued
  induction fuel generalizing context schema outcome with
  | zero => exact failed rfl (by simpa only [mutantsWithin] using listed) valued
  | succ fuel ih =>
    unfold mutantsWithin at listed
    cases schema with
    | string range sample => exact stock_of_mem_scalars (stock_lengthMutants range) listed valued
    | number range fractional sample =>
      exact stock_of_mem_scalars (stock_numberMutants range) listed valued
    | boolean sample =>
      have stock : ∀ schema ∈ [null, numeric, text], Stock schema :=
        fun schema hs => stock_kinds schema (by grind)
      exact stock_of_mem_scalars stock listed valued
    | null => cases listed
    | literal value title => exact stock_of_mem_scalars (stock_valueMutants value) listed valued
    | reference name =>
      simp only at listed
      split at listed
      · exact ih listed valued
      · exact failed rfl listed valued
    | object fields title =>
      rw [Enumeration.mem_toList_map] at listed
      obtain ⟨map, _, rfl⟩ := listed
      rw [Outcome.value?_map, Option.map_eq_some_iff] at valued
      obtain ⟨made, _, rfl⟩ := valued
      cases scalar
    | list item title sample =>
      rw [Enumeration.toList_append, List.mem_append] at listed
      rcases listed with listed | listed
      · exact stock_of_mem_scalars stock_kinds listed valued
      · split at listed
        · rw [Enumeration.mem_toList_map] at listed
          obtain ⟨part, _, rfl⟩ := listed
          rw [Outcome.value?_under, Outcome.value?_map, Option.map_eq_some_iff] at valued
          obtain ⟨inner, _, rfl⟩ := valued
          cases scalar
        · cases listed
        · exact failed rfl listed valued
    | union members key title sample =>
      obtain ⟨_, schema, _, stack, mutant, hm, valued⟩ := mem_of_mem_unionMutants listed valued
      exact ih hm valued

/-! ## 3. Partly accepted -/

/-- Whether a schema may accept a value of a scalar that it does not cover. It is then a literal of
that kind, or a range of that kind with a bound. -/
def overlaps : Schema → Schema → Bool
  | literal .null _, null => true
  | literal (.boolean _) _, boolean _ => true
  | literal (.number _) _, number _ _ _ => true
  | literal (.string _) _, string _ _ => true
  | number range _ _, number _ _ _ => range.least.isSome || range.most.isSome
  | string range _, string _ _ => range.least.isSome || range.most.isSome
  | _, _ => false

section Overlap

variable {context : Context} {leaf candidate : Schema} {value : Value}

/-- A schema covers the exact values that it accepts. -/
theorem coversAlways_exactly (fits : Accepts context.registry context.keyPolicy leaf value) :
    CoversAlways context context leaf (exactly value) :=
  fun _ _ _ => isAccepted_coversWithin_literal fits

theorem coversAlways_flag {sample : Option String} :
    CoversAlways context context (boolean sample) flag :=
  fun _ _ _ => Covered.boolean.isAccepted

/-- A range without bounds covers every range. -/
theorem isAccepted_rangeCovers_of_unbounded (what : String) {this : NumberRange}
    (other : NumberRange) (least : this.least = none) (most : this.most = none) :
    (rangeCovers what this other).isAccepted = true := by
  simp [rangeCovers_isAccepted, least, most]

theorem coversAlways_text {range : LengthRange} {sample : Option String}
    (least : range.least = none)
    (most : range.most = none) : CoversAlways context context (string range sample) text :=
  fun _ _ _ => (Covered.string (isAccepted_rangeCovers_of_unbounded "length" _
    (by simp [LengthRange.toNumberRange, least])
    (by simp [LengthRange.toNumberRange, most]))).isAccepted

theorem coversAlways_numeric {range : NumberRange} {fractional : Bool} {sample : Option String}
    (least : range.least = none) (most : range.most = none) :
    CoversAlways context context (number range fractional sample) numeric :=
  fun _ _ _ => (Covered.number
    (isAccepted_rangeCovers_of_unbounded "value" _ least most)).isAccepted

/-- Where a scalar of the stock is not covered, a node that accepts a value made for it overlaps
it. -/
theorem overlaps_of_accepts (empty : context.dictionary = []) (stock : Stock candidate)
    (scalar : candidate.isScalar = true) (concrete : leaf.Concrete)
    (made : Makes context candidate value)
    (fits : Accepts context.registry context.keyPolicy leaf value)
    (part : ¬CoversAlways context context leaf candidate) : leaf.overlaps candidate = true := by
  cases stock with
  | exactly expected =>
    obtain rfl := made.exactly_inv empty
    exact absurd (coversAlways_exactly fits) part
  | null =>
    obtain rfl := made.null_inv empty
    cases fits with
    | null => exact absurd coversAlways_null part
    | @literal expected _ _ same =>
      cases expected <;> first | rfl | simp [Value.sameLiteral, Value.same] at same
    | reference | union => exact concrete.elim
  | flag =>
    obtain ⟨b, rfl⟩ := made.flag_inv empty
    cases fits with
    | boolean => exact absurd coversAlways_flag part
    | @literal expected _ _ same =>
      cases expected <;> first | rfl | simp [Value.sameLiteral, Value.same] at same
    | reference | union => exact concrete.elim
  | text =>
    obtain ⟨text, rfl⟩ := made.text_inv empty
    cases fits with
    | @string range sample _ _ =>
      by_contra free
      simp only [overlaps, Schema.text, Bool.not_eq_true, Bool.or_eq_false_iff,
        Option.isSome_eq_false_iff, Option.isNone_iff_eq_none] at free
      exact part (coversAlways_text free.1 free.2)
    | @literal expected _ _ same =>
      cases expected <;> first | rfl | simp [Value.sameLiteral, Value.same] at same
    | reference | union => exact concrete.elim
  | numeric =>
    obtain ⟨n, rfl⟩ := made.numeric_inv empty
    cases fits with
    | @number range fractional sample _ _ =>
      by_contra free
      simp only [overlaps, numeric, Bool.not_eq_true, Bool.or_eq_false_iff,
        Option.isSome_eq_false_iff, Option.isNone_iff_eq_none] at free
      exact part (coversAlways_numeric free.1 free.2)
    | @literal expected _ _ same =>
      cases expected <;> first | rfl | simp [Value.sameLiteral, Value.same] at same
    | reference | union => exact concrete.elim

end Overlap

/-- A value that is made for a scalar among the mutants of a union is accepted exactly where a
schema in front of the union overlaps the scalar and accepts the value. A member that covers the
scalar would have had it dropped. -/
theorem accepts_scalarMutant_iff {context : Context} (guarded : context.registry.Guarded)
    (empty : context.dictionary = []) {row : Row} {members : List Schema}
    {key title sample : Option String} {candidate : Schema} {rng : Rng} {value : Value}
    (listed : ∃ outcome ∈ ((union members key title sample).mutants context row).toList,
      outcome.value? = some candidate)
    (scalar : candidate.isScalar = true)
    (made : ((candidate.generate context).runFrom rng).1 = .ok value) :
    ∃ fits, (union members key title sample).accepts context value = some fits ∧
      (fits = true ↔ ∃ leaf, Fronts context.registry (union members key title sample) leaf ∧
        leaf.overlaps candidate = true ∧ leaf.accepts context value = some true) := by
  obtain ⟨outcome, listed, valued⟩ := listed
  obtain ⟨verdict, checked⟩ :=
    Option.isSome_iff_exists.mp (check_isSome guarded (union members key title sample) value)
  have told : (union members key title sample).accepts context value = some verdict.isAccepted := by
    rw [accepts, checked]
    rfl
  refine ⟨verdict.isAccepted, told, ?_⟩
  have whole : verdict.isAccepted = true ↔
      Accepts context.registry context.keyPolicy (union members key title sample) value := by
    rw [← accepts_iff guarded, told, Option.some.injEq]
  rw [whole]
  constructor
  · intro fits
    obtain ⟨leaf, front, concrete, own⟩ := exists_fronts_of_accepts .self fits
    refine ⟨leaf, front, ?_, (accepts_iff guarded).mpr own⟩
    refine overlaps_of_accepts empty (stock_of_mem_mutantsWithin listed valued scalar)
      scalar concrete (makes_of_generate made) own fun covered => ?_
    obtain ⟨schema, hm, front⟩ := front.member_of_concrete concrete
    have whole : leaf.isUnion = false := by cases leaf <;> first | rfl | exact concrete.elim
    have found := someCovers_of_mem scalar hm (coversAlways_of_fronts scalar front whole covered)
    unfold mutants expansionBudget at listed
    obtain ⟨dropped, _⟩ := mem_of_mem_unionMutants listed valued
    cases (dropped scalar).symm.trans found
  · rintro ⟨leaf, front, _, own⟩
    exact accepts_of_fronts front (Accepts.of_accepts own)

end Schema

/-- Any text, or one of the literals true and false. -/
def textOrEither : Schema :=
  .union [.text, .exactly (.boolean true), .exactly (.boolean false)] none none none

theorem mem_mutants_textOrEither :
    ∃ outcome ∈ (textOrEither.mutants (.ofRegistry .initial) .empty).toList,
      outcome.value? = some .flag := by
  have third : (textOrEither.mutants (.ofRegistry .initial) .empty).toList[2]?.bind
      (fun outcome => outcome.value?) = some Schema.flag := rfl
  obtain ⟨outcome, found, valued⟩ := Option.bind_eq_some_iff.mp third
  exact ⟨outcome, List.mem_of_getElem? found, valued⟩

/-- A boolean that is made for a negative test is accepted by a literal in front. -/
theorem accepts_scalarMutant_textOrEither :
    ∃ leaf, Schema.Fronts .initial textOrEither leaf ∧ leaf.overlaps .flag = true ∧
      leaf.accepts (.ofRegistry .initial) (.boolean true) = some true := by
  have made : ((Schema.flag.generate (.ofRegistry .initial)).runFrom (.ofSeed 0)).1 =
      .ok (.boolean true) := rfl
  obtain ⟨fits, told, parts⟩ := Schema.accepts_scalarMutant_iff guarded_initial rfl
    mem_mutants_textOrEither rfl made
  have accepted : textOrEither.accepts (.ofRegistry .initial) (.boolean true) = some true := by
    decide +kernel
  exact parts.mp (Option.some.inj (told.symm.trans accepted))

/-- Between them the literals accept every boolean, but none of them covers the booleans, so a
boolean is among the mutants and the data that are made for it fit. -/
theorem accepts_flag_textOrEither :
    Registry.initial.Guarded ∧
      (∃ outcome ∈ (textOrEither.mutants (.ofRegistry .initial) .empty).toList,
        outcome.value? = some .flag) ∧
      ((Schema.flag.generate (.ofRegistry .initial)).runFrom (.ofSeed 0)).1 = .ok (.boolean true) ∧
      textOrEither.accepts (.ofRegistry .initial) (.boolean true) = some true :=
  ⟨guarded_initial, mem_mutants_textOrEither, rfl, by decide +kernel⟩

end DataContract
