import Mathlib
import DataContract.Proofs.Coverage
import DataContract.Proofs.ReadingBack
import DataContract.Proofs.ScalarCover

/-!
# Null among the mutants of a field

Null is offered as a mutant of a field unless the field allows it, and never twice. Whether it is
allowed is told by looking for null among the alternatives with their references followed, which is
not the same as whether null is accepted. An alternative that refers to a union is not looked into,
and neither is a literal, so null may be offered where it is accepted after all.

1. `Registry.inSight`: where null is looked for. If it is found there, null is accepted
   (`Schema.accepts_null_of_inSight`); if it is accepted and was not found, it hides in a union or a
   literal (`Schema.exists_hidesNull_of_accepts`).
2. `Schema.countP_null_mutantsWithin_le`: the mutants of a schema have null at most once.
3. `Schema.not_isNullSchema_of_inSight`: those of a schema with null in sight do not have it.
4. `Schema.nullsOffered_eq`: a field offers null once unless it is in sight. Hence
   `Schema.null_offered`, in terms of what is accepted.
-/

namespace DataContract

/-! ## 1. Looking for null -/

namespace Registry

/-- The alternatives among which null is looked for, references followed. -/
def inSight (registry : Registry) (schema : Schema) : List Schema :=
  (registry.resolve schema).alternatives.map registry.resolve

variable {registry : Registry}

/-- A schema is nullable when null is in sight. A chain that stops at a reference does not go on
from there. -/
theorem isNullable_iff (guarded : registry.Guarded) (schema : Schema) :
    registry.isNullable schema = true ↔ .null ∈ registry.inSight schema := by
  rw [← Schema.listsNull_iff, Schema.listsNull]
  refine Bool.eq_iff_iff.mp ?_
  unfold isNullable inSight reachesNull
  cases last : registry.resolve schema with
  | union members key title sample =>
    simp only [Schema.alternatives, List.any_map]
    rfl
  | reference name =>
    have chain : registry.Follows schema (.reference name) := last ▸ follows_resolve schema
    cases next : registry.resolve (.reference name) with
    | null =>
      have further : registry.Follows (.reference name) .null := next ▸ follows_resolve _
      cases last.symm.trans (resolve_of_follows guarded (chain.trans further) nofun)
    | _ => simp [Schema.alternatives, next, Schema.isNull]
  | _ => rfl

end Registry

namespace Schema

/-- Null may hide in a union that is referred to, and in the literal null. -/
def hidesNull : Schema → Bool
  | union _ _ _ _ => true
  | literal value _ => value.isNull
  | _ => false

/-- Where null is in sight it is accepted. -/
theorem accepts_null_of_inSight {registry : Registry} {policy : KeyPolicy} {schema : Schema}
    (found : null ∈ registry.inSight schema) : Accepts registry policy schema .null := by
  obtain ⟨alternative, ha, last⟩ := List.mem_map.mp found
  have fits : Accepts registry policy alternative .null :=
    (Registry.follows_resolve alternative).accepts_iff.mpr (last ▸ .null)
  exact (Registry.follows_resolve schema).accepts_iff.mpr
    (alternatives_up (P := fun schema => Accepts registry policy schema .null)
      (fun _ _ _ _ _ => .union) ha fits)

/-- Where null is accepted it is in sight, or it hides in something that is. -/
theorem exists_inSight_of_accepts {registry : Registry} (guarded : registry.Guarded)
    {policy : KeyPolicy} {schema : Schema} (fits : Accepts registry policy schema .null) :
    ∃ part ∈ registry.inSight schema, (part = null ∨ part.hidesNull = true) ∧
      Accepts registry policy part .null := by
  obtain ⟨alternative, ha, fits⟩ :=
    ((Registry.follows_resolve schema).accepts_iff.mp fits).alternative
  have ends := Registry.resolve_ne_reference guarded fits
  have own := (Registry.follows_resolve alternative).accepts_iff.mp fits
  refine ⟨registry.resolve alternative, List.mem_map_of_mem ha, ?_, own⟩
  generalize registry.resolve alternative = part at own ends
  cases own with
  | null => exact .inl rfl
  | @literal expected _ _ same =>
    refine .inr ?_
    cases expected <;> first | rfl | simp [Value.sameLiteral, Value.same] at same
  | reference => exact absurd rfl (ends _)
  | union => exact .inr rfl

/-! ## 2. Never twice -/

end Schema

/-- Of items that count as repeats of each other only the first one stays. -/
theorem Enumeration.countP_distinct_le {α β : Type} {key : α → Option β} {same : β → β → Bool}
    {p : α → Bool} {b : β} (keyed : ∀ a, p a = true → key a = some b) (itself : same b b = true)
    (items : Enumeration α) (seen : List β) :
    (distinct key same seen items).toList.countP p ≤ if seen.any (same b) then 0 else 1 := by
  induction items generalizing seen with
  | nil => exact Nat.zero_le _
  | cons a rest ih =>
    cases hp : p a with
    | true =>
      rw [distinct, keyed a hp]
      simp only
      split
      · next known => simpa [known] using ih () seen
      · next new =>
        have none := ih () (b :: seen)
        rw [List.any_cons, itself, Bool.true_or, if_pos rfl] at none
        rw [toList_cons, List.countP_cons_of_pos hp]
        omega
    | false =>
      have skip (rest : List α) : (a :: rest).countP p = rest.countP p :=
        List.countP_cons_of_neg (by simp [hp])
      cases hk : key a with
      | none => simpa [distinct, hk, skip] using ih () seen
      | some c =>
        rw [distinct, hk]
        simp only
        split
        · exact ih () seen
        · rw [toList_cons, skip]
          refine (ih () (c :: seen)).trans ?_
          rw [List.any_cons]
          cases same b c <;> cases seen.any (same b) <;> simp

namespace Schema

theorem countP_isNullSchema_map (schemas : List Schema) :
    (schemas.map Outcome.pure).countP Outcome.isNullSchema = schemas.countP isNull := by
  rw [List.countP_map]
  rfl

theorem countP_null_lengthMutants (range : LengthRange) : range.mutants.countP isNull = 1 := by
  obtain ⟨least, most⟩ := range
  cases least <;> cases most <;> simp only [LengthRange.mutants] <;> (repeat' split) <;> rfl

theorem countP_null_numberMutants (range : NumberRange) : range.mutants.countP isNull = 1 := by
  obtain ⟨least, most⟩ := range
  cases least <;> cases most <;> rfl

theorem countP_null_valueMutants (value : Value) : value.mutants.countP isNull ≤ 1 := by
  cases value <;> first | exact Nat.zero_le _ | exact Nat.le_refl _

theorem isNullSchema_map {f : Schema → Schema} (other : ∀ schema, (f schema).isNull = false)
    (outcome : Outcome Schema) : (outcome.map f).isNullSchema = false := by
  cases outcome <;> simp [Outcome.map, Outcome.isNullSchema, Outcome.value?, other]

theorem isNullSchema_under (segment : String) (outcome : Outcome Schema) :
    (outcome.under segment).isNullSchema = outcome.isNullSchema := by
  cases outcome <;> rfl

theorem repeatKey_of_isNullSchema {outcome : Outcome Schema} (h : outcome.isNullSchema = true) :
    repeatKey outcome = some null := by
  cases outcome with
  | value content notes =>
    cases content <;> first | rfl | cases h
  | _ => cases h

/-- The mutants of a schema have null at most once. -/
theorem countP_null_mutantsWithin_le {fuel : Nat} (context : Context) (row : Row)
    (schema : Schema) :
    (mutantsWithin fuel context row schema).toList.countP Outcome.isNullSchema ≤ 1 := by
  induction fuel generalizing context schema with
  | zero => exact Nat.zero_le _
  | succ fuel ih =>
    cases schema with
    | string range sample =>
      simp only [mutantsWithin, Enumeration.toList_ofList, countP_isNullSchema_map]
      exact (countP_null_lengthMutants range).le
    | number range fractional sample =>
      simp only [mutantsWithin, Enumeration.toList_ofList, countP_isNullSchema_map]
      exact (countP_null_numberMutants range).le
    | boolean sample => exact Nat.le_refl _
    | null => exact Nat.zero_le _
    | literal value title =>
      simp only [mutantsWithin, Enumeration.toList_ofList, countP_isNullSchema_map]
      exact countP_null_valueMutants value
    | reference name =>
      simp only [mutantsWithin]
      split
      · exact ih context _
      · exact Nat.zero_le _
    | object fields title =>
      refine (List.countP_eq_zero.mpr fun outcome listed => ?_).le.trans (Nat.zero_le 1)
      simp only [mutantsWithin, Enumeration.toList_map, List.mem_map] at listed
      obtain ⟨map, _, rfl⟩ := listed
      cases map <;> simp [Outcome.map, Outcome.isNullSchema, Outcome.value?, isNull]
    | list item title sample =>
      simp only [mutantsWithin, Enumeration.toList_append, Enumeration.toList_ofList,
        List.countP_append, countP_isNullSchema_map]
      have own : [null, text, numeric, flag].countP isNull = 1 := rfl
      have none : ∀ items : Enumeration (Outcome Schema),
          (∀ outcome ∈ items.toList, outcome.isNullSchema = false) →
          items.toList.countP Outcome.isNullSchema = 0 :=
        fun items h => List.countP_eq_zero.mpr fun outcome listed => by simp [h outcome listed]
      rw [own, none]
      split
      · intro outcome listed
        simp only [Enumeration.toList_map, List.mem_map] at listed
        obtain ⟨inner, _, rfl⟩ := listed
        rw [isNullSchema_under]
        exact isNullSchema_map (fun _ => rfl) inner
      · exact List.forall_mem_nil _
      · exact List.forall_mem_singleton.mpr rfl
    | union members key title sample =>
      exact (Enumeration.countP_distinct_le (b := null) (fun _ => repeatKey_of_isNullSchema) rfl
        _ []).trans (by simp)

/-! ## 3. Not where it is in sight -/

theorem coversAlways_null {this other : Context} : CoversAlways this other null null :=
  fun _ _ _ => Covered.null.isAccepted

/-- What a chain of references leads to is in front. -/
theorem Fronts.follows {registry : Registry} {start schema last : Schema}
    (front : Fronts registry start schema) (chain : registry.Follows schema last) :
    Fronts registry start last := by
  induction chain with
  | here => exact front
  | step found _ ih => exact ih (front.target found)

/-- A union with null in sight has no null among its mutants. -/
theorem not_isNullSchema_of_mem_unionMutants {context : Context} {members : List Schema}
    {negate : Context → Schema → Enumeration (Outcome Schema)} {alternative : Schema}
    (hm : alternative ∈ alternativesOfAll members)
    (chain : context.registry.Follows alternative null) {outcome : Outcome Schema}
    (listed : outcome ∈ (unionMutants (someCovers context members) negate context members).toList) :
    outcome.isNullSchema = false := by
  have covered : someCovers context members null = some true := by
    obtain ⟨schema, hs, ha⟩ := exists_mem_of_mem_alternativesOfAll hm
    have front : Fronts context.registry schema alternative :=
      alternatives_down (fun _ _ _ _ hu _ => hu.member) schema .self alternative ha
    exact someCovers_of_mem rfl hs
      (coversAlways_of_fronts rfl (front.follows chain) rfl coversAlways_null)
  by_contra offered
  have valued : outcome.value? = some null := by
    cases outcome with
    | value content notes => cases content <;> first | rfl | exact absurd rfl offered
    | _ => exact absurd rfl offered
  cases ((mem_of_mem_unionMutants listed valued).1 rfl).symm.trans covered

/-- A reference has the mutants of the schema that it leads to. -/
theorem mutantsWithin_of_follows {context : Context} {row : Row} {schema last : Schema}
    (chain : context.registry.Follows schema last) (fuel : Nat) :
    ∃ lower, mutantsWithin fuel context row schema = mutantsWithin lower context row last := by
  induction chain generalizing fuel with
  | here => exact ⟨fuel, rfl⟩
  | step found _ ih =>
    cases fuel with
    | zero => exact ⟨0, by simp only [mutantsWithin]⟩
    | succ fuel =>
      obtain ⟨lower, same⟩ := ih fuel
      exact ⟨lower, by simp only [mutantsWithin, Registry.lookup, found, same]⟩

/-- A schema with null in sight has no null among its mutants. -/
theorem not_isNullSchema_of_inSight {context : Context} (guarded : context.registry.Guarded)
    {row : Row} {fuel : Nat} {schema : Schema} (found : null ∈ context.registry.inSight schema)
    {outcome : Outcome Schema} (listed : outcome ∈ (mutantsWithin fuel context row schema).toList) :
    outcome.isNullSchema = false := by
  have ends := Registry.resolve_ne_reference guarded (@accepts_null_of_inSight _ .strict _ found)
  obtain ⟨alternative, ha, last⟩ := List.mem_map.mp found
  have chain : context.registry.Follows alternative null :=
    last ▸ Registry.follows_resolve alternative
  obtain ⟨lower, same⟩ :=
    @mutantsWithin_of_follows context row _ _ (Registry.follows_resolve schema) fuel
  rw [same] at listed
  generalize context.registry.resolve schema = resolved at ha ends listed
  cases lower with
  | zero =>
    simp only [mutantsWithin, Enumeration.toList_single, List.mem_singleton] at listed
    rw [listed]
    rfl
  | succ lower =>
    cases resolved with
    | union members key title sample => exact not_isNullSchema_of_mem_unionMutants ha chain listed
    | reference name => exact absurd rfl (ends name)
    | null => cases listed
    | _ =>
      obtain rfl := List.mem_singleton.mp ha
      cases chain

/-! ## 4. The null that a field offers -/

/-- How often null is offered as a mutant of a field. -/
def nullsOffered (context : Context) (row : Row) (schema : Schema) : Nat :=
  (fieldMutants .full context row schema).toList.countP Outcome.isNullSchema

/-- A field offers null once, unless it is nullable. -/
theorem nullsOffered_eq {context : Context} (guarded : context.registry.Guarded)
    (fresh : context.expanding = []) (row : Row) (schema : Schema) :
    schema.nullsOffered context row = if context.registry.isNullable schema then 0 else 1 := by
  obtain ⟨child, entered, same⟩ : ∃ child, context.enter schema true = .ok (some child) ∧
      child.registry = context.registry := by
    unfold Context.enter
    rw [fresh]
    cases schema.identity with
    | none => exact ⟨context, rfl, rfl⟩
    | some identity => exact ⟨_, rfl, rfl⟩
  have few := @countP_null_mutantsWithin_le (schema.expansionBudget child.registry) child row schema
  simp only [nullsOffered, fieldMutants, DataContract.fieldMutants, entered,
    Enumeration.toList_closeUnless, List.countP_append, mutants]
  cases nullable : context.registry.isNullable schema with
  | true =>
    have found := (Registry.isNullable_iff guarded schema).mp nullable
    rw [List.countP_eq_zero.mpr fun outcome listed => by
      rw [not_isNullSchema_of_inSight (same ▸ guarded) (same ▸ found) listed]
      exact Bool.false_ne_true]
    simp
  | false =>
    split
    · next offered =>
      have := List.countP_pos_iff.mpr (List.any_eq_true.mp offered)
      rw [List.countP_nil, if_neg Bool.false_ne_true]
      omega
    · next missing =>
      rw [List.countP_eq_zero.mpr fun outcome listed isNull =>
        missing (List.any_eq_true.mpr ⟨outcome, listed, isNull⟩)]
      rfl

/-- A field that rejects null offers it once. One that accepts null with null in sight does not
offer it. One that accepts null and has it nowhere in sight offers it all the same: it hides in a
union that is referred to, or in a literal. -/
theorem null_offered {context : Context} (guarded : context.registry.Guarded)
    (fresh : context.expanding = []) (row : Row) (schema : Schema) :
    ∃ fits, schema.accepts context .null = some fits ∧
      (fits = false → schema.nullsOffered context row = 1) ∧
      (fits = true →
        (null ∈ context.registry.inSight schema ∧ schema.nullsOffered context row = 0) ∨
        (null ∉ context.registry.inSight schema ∧ schema.nullsOffered context row = 1 ∧
          ∃ part ∈ context.registry.inSight schema, part.hidesNull = true ∧
            part.accepts context .null = some true)) := by
  obtain ⟨verdict, hv⟩ := Option.isSome_iff_exists.mp (check_isSome guarded schema .null)
  have accepts : schema.accepts context .null = some verdict.isAccepted := by
    rw [Schema.accepts, hv]
    rfl
  refine ⟨verdict.isAccepted, accepts, fun rejected => ?_, fun accepted => ?_⟩
  · rw [nullsOffered_eq guarded fresh, if_neg]
    intro nullable
    have fits := @accepts_null_of_inSight _ context.keyPolicy _
      ((Registry.isNullable_iff guarded schema).mp nullable)
    rw [← accepts_iff guarded, accepts, rejected] at fits
    cases fits
  · rw [nullsOffered_eq guarded fresh, ← Registry.isNullable_iff guarded schema]
    cases nullable : context.registry.isNullable schema with
    | true => exact .inl ⟨rfl, rfl⟩
    | false =>
      rw [accepted, accepts_iff guarded] at accepts
      obtain ⟨part, hp, kind, fits⟩ := exists_inSight_of_accepts guarded accepts
      refine .inr ⟨Bool.false_ne_true, rfl, part, hp, ?_, (accepts_iff guarded).mpr fits⟩
      refine kind.resolve_left fun same => ?_
      rw [(Registry.isNullable_iff guarded schema).mpr (same ▸ hp)] at nullable
      cases nullable

end Schema

/-- A registry with a number that may be null. -/
def maybeCounts : Context :=
  .ofRegistry (Registry.initial.register "MaybeCount" (.nullable .numeric))

theorem guarded_maybeCounts : maybeCounts.registry.Guarded :=
  Registry.guarded_of_rank (fun _ => 0) (by decide +kernel)

/-- Null is in sight where the name itself is the field. -/
theorem null_offered_maybeCount :
    (Schema.named "MaybeCount").accepts maybeCounts .null = some true ∧
      (Schema.named "MaybeCount").nullsOffered maybeCounts .empty = 0 := by
  obtain ⟨fits, accepts, _, offered⟩ := Schema.null_offered guarded_maybeCounts rfl .empty
    (.named "MaybeCount")
  have accepted : (Schema.named "MaybeCount").accepts maybeCounts .null = some true := by
    decide +kernel
  obtain rfl : fits = true := Option.some.inj (accepts.symm.trans accepted)
  refine ⟨accepted, ((offered rfl).resolve_right fun hidden => hidden.1 ?_).2⟩
  exact (Registry.isNullable_iff guarded_maybeCounts _).mp (by decide +kernel)

/-- In a union with a text the name is not looked into, and null is offered although it is
accepted. -/
theorem null_offered_in_vain :
    maybeCounts.registry.Guarded ∧ maybeCounts.expanding = [] ∧
    (Schema.union [.text, .named "MaybeCount"] none none none).accepts maybeCounts .null =
      some true ∧
    (Schema.union [.text, .named "MaybeCount"] none none none).nullsOffered
        maybeCounts .empty = 1 :=
  ⟨guarded_maybeCounts, rfl, by decide +kernel, by decide +kernel⟩

end DataContract
