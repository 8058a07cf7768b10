import Mathlib
import DataContract.Proofs.Derives
import DataContract.Schema.Mutation

/-!
# What a candidate is made of

Candidates for positive and for negative tests have their references followed and their unions taken
apart.

1. `Schema.Derives.concrete`: no candidate for a positive test has a reference or a union inside.
2. `mutantMaps_entries`: in a map for a negative test every schema is a mutant or a variant.
3. `Schema.mutantsWithin_concrete`: no candidate for a negative test has a reference or a union
   inside.
-/

namespace DataContract

/-! ## 1. Positive tests -/

namespace Schema

/-- Neither a reference nor a union. -/
def Concrete : Schema → Prop
  | reference _ | union _ _ _ _ => False
  | _ => True

instance : DecidablePred Concrete
  | reference _ | union _ _ _ _ => .isFalse id
  | string _ _ | number _ _ _ | boolean _ | null | literal _ _ | object _ _ | list _ _ _ =>
    .isTrue trivial

theorem concrete_of_isLeaf {schema : Schema} (h : schema.isLeaf = true) :
    schema.Everywhere Concrete := by
  cases schema <;> first | exact List.forall_mem_singleton.mpr trivial | cases h

theorem concrete_exactly (value : Value) : (exactly value).Everywhere Concrete :=
  concrete_of_isLeaf rfl

theorem concrete_null : null.Everywhere Concrete := concrete_of_isLeaf rfl

theorem Derives.concrete {context : Context} {schema candidate : Schema}
    (derived : Derives context schema candidate) : candidate.Everywhere Concrete := by
  induction derived with
  | same leaf => exact concrete_of_isLeaf leaf
  | taken _ => exact concrete_exactly _
  | reference _ _ ih => exact ih
  | object _ _ _ _ ih => exact everywhere_object.mpr ⟨trivial, ih⟩
  | list _ ih => exact everywhere_list.mpr ⟨trivial, ih⟩
  | emptyList => exact concrete_exactly _
  | union _ _ ih => exact ih

end Schema

/-! ## 2. Maps for negative tests -/

namespace Outcome

variable {α β : Type}

theorem value?_map (f : α → β) (outcome : Outcome α) :
    (outcome.map f).value? = outcome.value?.map f := by
  cases outcome <;> rfl

theorem value?_under (segment : String) (outcome : Outcome α) :
    (outcome.under segment).value? = outcome.value? := by
  cases outcome <;> rfl

theorem value?_ofAttempt {attempt : Attempt α} {a : α} (h : (ofAttempt attempt).value? = some a) :
    attempt = .ok a := by
  rcases attempt with (_ | _) | b
  · cases h
  · cases h
  · cases h
    rfl

theorem value?_flatten {attempt : Attempt (Outcome α)} {a : α}
    (h : (flatten attempt).value? = some a) :
    ∃ outcome, attempt = .ok outcome ∧ outcome.value? = some a := by
  rcases attempt with (_ | _) | outcome
  · cases h
  · cases h
  · exact ⟨outcome, rfl, h⟩

theorem value?_combine {f : α → β → α} {a : Outcome α} {b : Outcome β} {c : α}
    (h : (combine f a b).value? = some c) :
    ∃ x y, a.value? = some x ∧ b.value? = some y ∧ c = f x y := by
  cases a <;> cases b <;> cases h
  exact ⟨_, _, rfl, rfl, rfl⟩

/-- What is folded has a value only when every part has; each entry is one of them or was there. -/
theorem mem_foldl_combine {entries : Fields (Outcome α)} {done : Outcome (Fields α)}
    {fields : Fields α}
    (h : (entries.foldl (fun done entry =>
      combine (fun fields item => Fields.put entry.1 item fields) done entry.2) done).value? =
        some fields) :
    ∃ before, done.value? = some before ∧ ∀ entry ∈ fields,
      entry ∈ before ∨ ∃ other ∈ entries, other.2.value? = some entry.2 := by
  induction entries generalizing done with
  | nil => exact ⟨fields, h, fun _ => .inl⟩
  | cons first rest ih =>
    obtain ⟨before, hb, source⟩ := ih h
    obtain ⟨old, part, ho, hp, rfl⟩ := value?_combine hb
    refine ⟨old, ho, fun entry hm => ?_⟩
    rcases source entry hm with hb | ⟨other, hr, he⟩
    · rcases Fields.mem_put hb with rfl | ho
      · exact .inr ⟨first, List.mem_cons_self, hp⟩
      · exact .inl ho
    · exact .inr ⟨other, List.mem_cons_of_mem _ hr, he⟩

theorem mem_foldFields {entries : Fields (Outcome α)} {fields : Fields α}
    (h : (foldFields entries).value? = some fields) :
    ∀ entry ∈ fields, ∃ other ∈ entries, other.2.value? = some entry.2 := by
  obtain ⟨before, hb, source⟩ := mem_foldl_combine h
  cases hb
  exact fun entry hm => (source entry hm).resolve_left nofun

end Outcome

section MutantMaps

variable {mutants : String → Schema → Enumeration (Outcome Schema)}
  {positives : String → Schema → Enumeration (Attempt (Option Schema))}
  {fits : Schema → Prop} {entries : List (String × Schema)} {outcome : Outcome (Fields Schema)}
  {made : Fields Schema}

theorem mapOfChoice_entries {choice : List (String × Outcome (Option Schema))}
    (h : (mapOfChoice choice).value? = some made) :
    ∀ entry ∈ made, ∃ part ∈ choice, part.2.value? = some (some entry.2) := by
  unfold mapOfChoice at h
  rw [Outcome.value?_map, Option.map_eq_some_iff] at h
  obtain ⟨fields, hf, rfl⟩ := h
  intro entry hm
  obtain ⟨field, hm, he⟩ := List.mem_filterMap.mp hm
  obtain ⟨part, hp, hv⟩ := Outcome.mem_foldFields hf field hm
  rw [Option.map_eq_some_iff] at he
  obtain ⟨schema, hs, rfl⟩ := he
  exact ⟨part, Fields.mem_of_mem_ofList hp, hs ▸ hv⟩

/-- The parts of a choice: the candidate at its place, variants of the fields elsewhere. -/
theorem choice_parts {place : Nat} {candidate : Outcome Schema}
    (own : ∀ schema, candidate.value? = some schema → fits schema)
    {places : List ((String × Schema) × Nat)}
    (others : ∀ field ∈ places, ∀ schema,
      .ok (some schema) ∈ (positives field.1.1 field.1.2).toList → fits schema)
    {choice : List (String × Outcome (Option Schema))}
    (chosen : choice ∈ (Enumeration.product (places.map fun entry => fun _ =>
      if entry.2 = place then .single (Key.name entry.1.1, candidate.map some)
      else (positives entry.1.1 entry.1.2).map fun choice =>
        (Key.name entry.1.1, (Outcome.ofAttempt choice).under (Key.name entry.1.1)))).toList) :
    ∀ part ∈ choice, ∀ schema, part.2.value? = some (some schema) → fits schema := by
  induction places generalizing choice with
  | nil =>
    rw [List.map_nil, Enumeration.toList_product_nil, List.mem_singleton] at chosen
    subst chosen
    exact nofun
  | cons field rest ih =>
    obtain ⟨first, below⟩ := List.forall_mem_cons.mp others
    rw [List.map_cons] at chosen
    obtain ⟨part, hp, parts, hps, rfl⟩ := Enumeration.mem_toList_product_cons.mp chosen
    refine List.forall_mem_cons.mpr ⟨fun schema hv => ?_, ih below hps⟩
    split at hp
    · rw [Enumeration.mem_toList_single] at hp
      subst hp
      rw [Outcome.value?_map, Option.map_eq_some_iff] at hv
      obtain ⟨schema, hs, ⟨⟩⟩ := hv
      exact own schema hs
    · rw [Enumeration.mem_toList_map] at hp
      obtain ⟨attempt, ha, rfl⟩ := hp
      rw [Outcome.value?_under] at hv
      rw [Outcome.value?_ofAttempt hv] at ha
      exact first schema ha

theorem mem_of_mem_zipIdx {field : (String × Schema) × Nat} (h : field ∈ entries.zipIdx) :
    field.1 ∈ entries := by
  obtain ⟨_, hf⟩ := List.mem_zipIdx' h
  exact hf ▸ List.getElem_mem _

/-- In a map for a negative test every schema is a mutant or a variant of a field. -/
theorem mutantMaps_entries
    (own : ∀ field ∈ entries, ∀ candidate ∈ (mutants field.1 field.2).toList, ∀ schema,
      candidate.value? = some schema → fits schema)
    (others : ∀ field ∈ entries, ∀ schema,
      .ok (some schema) ∈ (positives field.1 field.2).toList → fits schema)
    (listed : outcome ∈ (mutantMaps mutants positives entries).toList)
    (valued : outcome.value? = some made) : ∀ entry ∈ made, fits entry.2 := by
  rw [toList_mutantMaps, List.mem_append, List.mem_flatMap] at listed
  rcases listed with ⟨field, hf, listed⟩ | listed
  · rw [List.mem_flatMap] at listed
    obtain ⟨candidate, hc, listed⟩ := listed
    unfold mutateAt at listed
    rw [Enumeration.mem_toList_map] at listed
    obtain ⟨choice, chosen, rfl⟩ := listed
    have parts := choice_parts
      (fun schema hv => own field.1 (mem_of_mem_zipIdx hf) candidate hc schema
        (Outcome.value?_under _ candidate ▸ hv))
      (fun field hf => others field.1 (mem_of_mem_zipIdx hf)) chosen
    intro entry hm
    obtain ⟨part, hp, hv⟩ := mapOfChoice_entries valued entry hm
    exact parts part hp _ hv
  · split at listed
    · cases listed
    · rw [List.mem_singleton] at listed
      subst listed
      cases valued
      exact nofun

end MutantMaps

/-! ## 3. Negative tests -/

namespace Schema

theorem mutants_concrete_of_leaves {schemas : List Schema}
    (h : ∀ schema ∈ schemas, schema.isLeaf = true) {outcome : Outcome Schema}
    (listed : outcome ∈ (Enumeration.ofList (schemas.map Outcome.pure)).toList) {candidate : Schema}
    (valued : outcome.value? = some candidate) : candidate.Everywhere Concrete := by
  rw [Enumeration.toList_ofList, List.mem_map] at listed
  obtain ⟨schema, hm, rfl⟩ := listed
  cases valued
  exact concrete_of_isLeaf (h _ hm)

/-- A string is missed by other scalars, and by one letter at each bound. -/
theorem mem_lengthMutants {range : LengthRange} {mutant : Schema}
    (listed : mutant ∈ range.mutants) :
    mutant ∈ [null, numeric, flag] ∨
      (∃ least, range.least = some least ∧ 0 < least ∧ mutant = exactly (letters (least - 1))) ∨
      ∃ most, range.most = some most ∧ mutant = exactly (letters (most + 1)) := by
  obtain ⟨least, most⟩ := range
  unfold LengthRange.mutants at listed
  rcases List.mem_append.mp listed with listed | above
  · rcases List.mem_append.mp listed with kind | below
    · exact .inl kind
    · cases least with
      | none => cases below
      | some least =>
        simp only at below
        split at below
        · next pos => exact .inr (.inl ⟨least, rfl, pos, List.mem_singleton.mp below⟩)
        · cases below
  · cases most with
    | none => cases above
    | some most =>
      simp only at above
      split at above
      · exact .inr (.inr ⟨most, rfl, List.mem_singleton.mp above⟩)
      · cases above

/-- A number is missed by other scalars, and by one at each bound. -/
theorem mem_numberMutants {range : NumberRange} {mutant : Schema}
    (listed : mutant ∈ range.mutants) :
    mutant ∈ [null, text, flag] ∨
      (∃ least, range.least = some least ∧
        mutant = exactly (.number (.ofDouble (least.sub (.ofInt 1))))) ∨
      ∃ most, range.most = some most ∧
        mutant = exactly (.number (.ofDouble (most.add (.ofInt 1)))) := by
  obtain ⟨least, most⟩ := range
  unfold NumberRange.mutants at listed
  rcases List.mem_append.mp listed with listed | above
  · rcases List.mem_append.mp listed with kind | below
    · exact .inl kind
    · cases least with
      | none => cases below
      | some least => exact .inr (.inl ⟨least, rfl, List.mem_singleton.mp below⟩)
  · cases most with
    | none => cases above
    | some most => exact .inr (.inr ⟨most, rfl, List.mem_singleton.mp above⟩)

theorem isLeaf_lengthMutants (range : LengthRange) :
    ∀ schema ∈ range.mutants, schema.isLeaf = true := by
  intro schema listed
  rcases mem_lengthMutants listed with kind | ⟨least, _, _, rfl⟩ | ⟨most, _, rfl⟩
  · simp only [List.mem_cons, List.not_mem_nil, or_false] at kind
    rcases kind with rfl | rfl | rfl <;> rfl
  · rfl
  · rfl

theorem isLeaf_numberMutants (range : NumberRange) :
    ∀ schema ∈ range.mutants, schema.isLeaf = true := by
  intro schema listed
  rcases mem_numberMutants listed with kind | ⟨least, _, rfl⟩ | ⟨most, _, rfl⟩
  · simp only [List.mem_cons, List.not_mem_nil, or_false] at kind
    rcases kind with rfl | rfl | rfl <;> rfl
  · rfl
  · rfl

theorem isLeaf_valueMutants (value : Value) : ∀ schema ∈ value.mutants, schema.isLeaf = true := by
  cases value <;> simp [Value.mutants, text, numeric, flag, isLeaf]

theorem rejectedBy_value? {covers : Schema → Option Bool} {outcome kept : Outcome Schema}
    (h : rejectedBy covers kept = some outcome) {candidate : Schema}
    (valued : outcome.value? = some candidate) : kept.value? = some candidate := by
  unfold rejectedBy at h
  split at h
  · split at h
    · split at h
      · cases h
      · cases h
        exact valued
      · cases h
        cases valued
    · cases h
      exact valued
  · cases h
    exact valued

/-- A mutant of a field in a body is one of its schema, or the null put last where null is not
allowed. -/
theorem mem_fieldMutants {negate : Context → Schema → Enumeration (Outcome Schema)}
    {context : Context} {expanding : List Frame} {schema : Schema} {outcome : Outcome Schema}
    (listed : outcome ∈ (DataContract.fieldMutants .full negate
      { context with expanding := expanding } schema).toList) :
    (∃ stack, outcome ∈ (negate { context with expanding := stack } schema).toList) ∨
      (outcome = .pure null ∧ context.registry.isNullable schema = false) := by
  unfold DataContract.fieldMutants at listed
  simp only at listed
  split at listed
  · next child entered =>
    obtain ⟨stack, rfl⟩ := Context.expanding_of_enter entered
    rw [Enumeration.toList_closeUnless, List.mem_append] at listed
    rcases listed with listed | last
    · exact .inl ⟨stack, listed⟩
    · split at last
      · cases last
      · split at last
        · cases last
        · next allowed =>
          exact .inr ⟨List.mem_singleton.mp last, Bool.eq_false_iff.mpr allowed⟩
  · cases listed
  · next refused => exact (Context.enter_nullable_ne_error refused).elim

/-- The mutants that a union settles on are mutants of its members; a scalar among them is one that
no member covers. -/
theorem mem_of_mem_unionMutants {covers : Schema → Option Bool}
    {negate : Context → Schema → Enumeration (Outcome Schema)} {context : Context}
    {members : List Schema} {outcome : Outcome Schema} {candidate : Schema}
    (listed : outcome ∈ (unionMutants covers negate context members).toList)
    (valued : outcome.value? = some candidate) :
    (candidate.isScalar = true → covers candidate = some false) ∧
      ∃ schema ∈ members, ∃ stack, ∃ mutant ∈
        (negate { context with expanding := stack } schema).toList,
          mutant.value? = some candidate := by
  have listed := (Enumeration.toList_distinct_sublist _ _ _ _).subset listed
  rw [Enumeration.toList_filterMap, List.mem_filterMap] at listed
  obtain ⟨kept, hk, rejected⟩ := listed
  have valued' := rejectedBy_value? rejected valued
  constructor
  · intro scalar
    simp only [rejectedBy, valued', scalar, if_true] at rejected
    split at rejected
    · cases rejected
    · assumption
    · cases rejected
      cases valued
  · rw [Enumeration.toList_filter, List.mem_filter, Enumeration.mem_toList_map] at hk
    obtain ⟨⟨attempt, ha, rfl⟩, _⟩ := hk
    obtain ⟨own, rfl, hv⟩ := Outcome.value?_flatten valued'
    obtain ⟨schema, hm, stack, hs⟩ := mem_of_mem_alternativeStream (mem_of_mem_settle ha)
    rw [Enumeration.mem_toList_map] at hs
    obtain ⟨own, hs, ⟨⟩⟩ := hs
    exact ⟨schema, hm, stack, own, hs, hv⟩

/-- No candidate for a negative test has a reference or a union inside. The induction is on the
steps; the fields of an object that are not mutated are variants. -/
theorem mutantsWithin_concrete {context : Context} {row : Row} (plain : row.Plain) {fuel : Nat}
    {expanding : List Frame} {schema : Schema} {outcome : Outcome Schema} {candidate : Schema}
    (listed : outcome ∈
      (mutantsWithin fuel { context with expanding := expanding } row schema).toList)
    (valued : outcome.value? = some candidate) : candidate.Everywhere Concrete := by
  induction fuel generalizing expanding schema outcome candidate with
  | zero =>
    unfold mutantsWithin at listed
    rw [Enumeration.mem_toList_single] at listed
    subst listed
    cases valued
  | succ fuel ih =>
    have failed {halt : Outcome Schema} (h : halt.value? = none)
        (listed : outcome ∈ (Enumeration.single halt).toList) : candidate.Everywhere Concrete := by
      rw [Enumeration.mem_toList_single] at listed
      rw [listed, h] at valued
      cases valued
    unfold mutantsWithin at listed
    cases schema with
    | string range sample =>
      exact mutants_concrete_of_leaves (isLeaf_lengthMutants range) listed valued
    | number range fractional sample =>
      exact mutants_concrete_of_leaves (isLeaf_numberMutants range) listed valued
    | boolean sample =>
      exact mutants_concrete_of_leaves (by simp [text, numeric, isLeaf]) listed valued
    | null => cases listed
    | literal value title =>
      exact mutants_concrete_of_leaves (isLeaf_valueMutants value) listed valued
    | reference name =>
      simp only [Registry.lookup] at listed
      cases hf : context.registry.find? name with
      | none =>
        simp only [hf] at listed
        exact failed rfl listed
      | some target =>
        simp only [hf] at listed
        exact ih listed valued
    | object fields title =>
      rw [Enumeration.mem_toList_map] at listed
      obtain ⟨map, hm, rfl⟩ := listed
      rw [Outcome.value?_map, Option.map_eq_some_iff] at valued
      obtain ⟨made, hv, rfl⟩ := valued
      refine everywhere_object.mpr ⟨trivial, mutantMaps_entries ?_ ?_ hm hv⟩
      · intro field _ part hp schema hs
        rcases mem_fieldMutants hp with ⟨stack, hp⟩ | ⟨rfl, _⟩
        · exact ih hp hs
        · cases hs
          exact concrete_null
      · intro field _ schema hp
        have part :=
          fieldVariants_part plain (fun stack candidate hc => derives_of_mem_variants plain hc) hp
        exact part.concrete
    | list item title sample =>
      rw [Enumeration.toList_append, List.mem_append] at listed
      rcases listed with listed | listed
      · exact mutants_concrete_of_leaves (by simp [text, numeric, flag, isLeaf]) listed valued
      · split at listed
        · next child he =>
          obtain ⟨stack, rfl⟩ := Context.expanding_of_enter he
          rw [Enumeration.mem_toList_map] at listed
          obtain ⟨part, hp, rfl⟩ := listed
          rw [Outcome.value?_under, Outcome.value?_map, Option.map_eq_some_iff] at valued
          obtain ⟨inner, hv, rfl⟩ := valued
          exact everywhere_list.mpr ⟨trivial, ih hp hv⟩
        · cases listed
        · exact failed rfl listed
    | union members key title sample =>
      obtain ⟨_, schema, _, stack, mutant, hm, valued⟩ := mem_of_mem_unionMutants listed valued
      exact ih hm valued

end Schema
end DataContract
