import Mathlib
import DataContract.Proofs.OneField
import DataContract.Proofs.Reentry

/-!
# What generation and derivation halt by

A computation over schemas halts by what its parts halt by, or by an error of its own. `halts` is
any condition on halts that stays true when they are seen from one level up.

1. `generateFields_halts`: objects that are generated; for lists see `generateItems_ends`.
2. `combinationVariants_halts`, `alternativeStream_halts`, `settle_halts`: items for positive tests.
3. `Outcome.isCrash_combine` and what follows from it: a map for a negative test crashes only where
   a part of it does.
-/

namespace DataContract

open Gen

section

variable {halts : Halt → Prop}

/-! ## 1. Values -/

theorem generateKeyed_halts {make : Context → Schema → Gen Value} {context : Context}
    {schema : Schema} {key : Option String} (empty : context.dictionary = [])
    (h : (make context schema).Ends (fun _ => True) halts) :
    (generateKeyed make context key schema).Ends (fun _ => True) halts := by
  rwa [generateKeyed_of_empty empty]

/-- A value that is taken from the dictionary is checked first. -/
theorem generateKeyed_ends {make : Context → Schema → Gen Value} {context : Context}
    {schema : Schema} {key : Option String} (endless : halts .endless)
    (h : (make context schema).Ends (fun _ => True) halts) :
    (generateKeyed make context key schema).Ends (fun _ => True) halts := by
  unfold generateKeyed
  split
  · exact h
  · refine ends_bind (ends_attempt ?_)
    cases schema.accepts context _ with
    | none => exact endless
    | some fits =>
      show Gen.Ends _ _ _
      split
      · exact ends_pure trivial
      · exact h

section Closed

variable (closed : ∀ halt segment, halts halt → halts (halt.under segment))
include closed

/-- An object halts by what a field that is entered halts by, or where one is refused. Cycles inside
an optional field do not count. -/
theorem generateFields_halts {make : Context → Schema → Gen Value} {context : Context}
    {fields : List (String × Schema)} {done : Fields Value}
    (refused : ∀ field ∈ fields, ∀ cause,
      context.enter field.2 (Key.isOptional field.1) = .error cause → halts (.error cause))
    (h : ∀ field ∈ fields, ∀ child,
      context.enter field.2 (Key.isOptional field.1) = .ok (some child) →
        (generateKeyed make child (some (Key.name field.1)) field.2).Ends (fun _ => True)
          fun halt => (halt.isCycle = true → Key.isOptional field.1 = false) → halts halt) :
    (generateFields make context fields done).Ends (fun _ => True) halts := by
  induction fields generalizing done with
  | nil => exact ends_pure trivial
  | cons field rest ih =>
    obtain ⟨key, schema⟩ := field
    obtain ⟨refusedHere, refused⟩ := List.forall_mem_cons.mp refused
    obtain ⟨own, others⟩ := List.forall_mem_cons.mp h
    have part : ((context.protect schema (Key.isOptional key) fun child =>
        generateKeyed make child (some (Key.name key)) schema).under (Key.name key)).Ends
          (fun _ => True) halts := by
      exact ends_under _ (ends_mono (Context.ends_protect refusedHere (fun _ => trivial) own)
        (fun _ => id) fun halt => closed halt _)
    have entered {next : Option Value → Gen (Fields Value)}
        (h : ∀ part?, (next part?).Ends (fun _ => True) halts) :
        (((context.protect schema (Key.isOptional key) fun child =>
          generateKeyed make child (some (Key.name key)) schema).under (Key.name key)) >>=
            next).Ends (fun _ => True) halts :=
      ends_bind (ends_mono part (fun part? _ => h part?) fun _ => id)
    unfold generateFields
    dsimp only
    split
    · refine ends_bind ?_
      unfold includeOptional
      split
      · refine ends_pure (entered fun part? => ?_)
        cases part? <;> exact ih refused others
      · refine ends_draw fun rng => ?_
        split
        · refine entered fun part? => ?_
          cases part? <;> exact ih refused others
        · exact ih refused others
    · refine ends_bind (ends_pure (entered fun part? => ?_))
      cases part? <;> exact ih refused others

end Closed

/-! ## 2. Items for positive tests -/

theorem absorbCycle_halts (optional : Bool) {attempt : Attempt Schema}
    (h : attempt.Ends (fun _ => True) halts) :
    (absorbCycle optional attempt).Ends (fun _ => True) halts := by
  unfold absorbCycle
  split
  · trivial
  · split
    · trivial
    · exact h
  · exact h

/-- An empty row binds no literal. -/
theorem Row.not_bound_empty {name literal : String} : Row.empty.literal? name ≠ some literal :=
  (Option.some_ne_none literal).symm

theorem fieldVariants_halts {derive : Context → Schema → Enumeration (Attempt Schema)}
    {context : Context} {row : Row} {key : String} {schema : Schema}
    (bound : ∀ literal, row.literal? (Key.name key) = some literal →
      (rowLiteral context literal schema).Ends (fun _ => True) halts)
    (refused : ∀ cause, context.enter schema (Key.isOptional key) = .error cause →
      halts (.error cause))
    (h : ∀ child, context.enter schema (Key.isOptional key) = .ok (some child) →
      ∀ item ∈ (derive child schema).toList, item.Ends (fun _ => True) halts) :
    ∀ item ∈ (fieldVariants derive context row key schema).toList,
      item.Ends (fun _ => True) halts := by
  intro item listed
  unfold fieldVariants at listed
  split at listed
  · next literal found =>
    rw [Enumeration.mem_toList_single] at listed
    subst listed
    split
    · trivial
    · have own := bound literal found
      revert own
      cases rowLiteral context literal schema <;> exact id
  · dsimp only at listed
    split at listed
    · next child entered =>
      obtain ⟨own, ho, rfl⟩ := Enumeration.mem_toList_map.mp listed
      exact absorbCycle_halts _ (h child entered own ho)
    · rw [Enumeration.mem_toList_single] at listed
      subst listed
      trivial
    · next cause entered =>
      rw [Enumeration.mem_toList_single] at listed
      subst listed
      exact refused cause entered

theorem alternativeStream_halts {α : Type} {value : α → Prop}
    {derive : Context → Schema → Enumeration (Attempt α)}
    {context : Context} {members : List Schema}
    (refused : ∀ schema ∈ members, ∀ cause,
      context.enter schema (Schema.listsNull members) = .error cause → halts (.error cause))
    (h : ∀ schema ∈ members, ∀ child,
      context.enter schema (Schema.listsNull members) = .ok (some child) →
        ∀ item ∈ (derive child schema).toList, item.Ends value halts) :
    ∀ item ∈ (alternativeStream derive context members).toList, item.Ends value halts := by
  intro item listed
  unfold alternativeStream at listed
  rw [Enumeration.toList_flatMap, List.mem_flatMap] at listed
  obtain ⟨schema, hm, listed⟩ := listed
  rw [Enumeration.toList_ofList] at hm
  have hm := Schema.mem_of_mem_nullsLast hm
  split at listed
  · next child entered => exact h schema hm child entered item listed
  · cases listed
  · next cause entered =>
    rw [Enumeration.mem_toList_single] at listed
    subst listed
    exact refused schema hm cause entered

/-- Items that are settled halt as they did before, or by an error. -/
theorem settle_halts {α : Type} {value : α → Prop} {headline : String}
    {items : Enumeration (Attempt α)} (errors : ∀ cause, halts (.error cause))
    (h : ∀ item ∈ items.toList, item.Ends value halts) :
    ∀ item ∈ (items.settle headline).toList, item.Ends value halts := by
  rw [Enumeration.toList_settle]
  split
  · exact fun item hm => h item (List.mem_filter.mp hm).1
  · intro item hm
    unfold Enumeration.closing at hm
    split at hm
    · cases hm
    · rw [Enumeration.mem_toList_single] at hm
      subst hm
      exact errors _

section Closed

variable (closed : ∀ halt segment, halts halt → halts (halt.under segment))
include closed

theorem listVariant_halts (title : Option String) {attempt : Attempt Schema}
    (h : attempt.Ends (fun _ => True) halts) :
    (listVariant title attempt).Ends (fun _ => True) halts := by
  unfold listVariant
  split
  · trivial
  · trivial
  · exact closed _ _ h

theorem assembleFields_halts {choice : List (String × Attempt (Option Schema))}
    {done : Fields Schema} (h : ∀ part ∈ choice, part.2.Ends (fun _ => True) halts) :
    (assembleFields choice done).Ends (fun _ => True) halts := by
  induction choice generalizing done with
  | nil => trivial
  | cons part rest ih =>
    obtain ⟨key, attempt⟩ := part
    obtain ⟨own, others⟩ := List.forall_mem_cons.mp h
    unfold assembleFields
    split
    · exact ih others
    · exact ih others
    · exact closed _ _ own

/-- A choice of variants halts by what one of them halts by. -/
theorem fieldsOfChoice_halts {choice : List (String × Attempt (Option Schema))}
    (h : ∀ part ∈ choice, part.2.Ends (fun _ => True) halts) :
    (fieldsOfChoice choice).Ends (fun _ => True) halts := by
  unfold fieldsOfChoice
  split
  · next endless =>
    obtain ⟨part, hp, same⟩ := List.any_eq_true.mp endless
    have own := h part hp
    split at same
    · next halted =>
      rw [halted] at own
      exact own
    · cases same
  · exact assembleFields_halts closed h

theorem combinationVariants_halts
    {positives : String → Schema → Enumeration (Attempt (Option Schema))} {row : Row}
    {entries : Fields Schema}
    (h : ∀ field ∈ entries, ∀ item ∈ (positives field.1 field.2).toList,
      item.Ends (fun _ => True) halts) :
    ∀ item ∈ (combinationVariants positives row entries).toList,
        item.Ends (fun _ => True) halts := by
  intro item listed
  unfold combinationVariants fieldsVariants at listed
  simp only [Enumeration.toList_flatMap, Enumeration.toList_map, List.mem_flatMap,
    List.mem_map] at listed
  obtain ⟨keys, _, choice, chosen, rfl⟩ := listed
  refine fieldsOfChoice_halts closed fun part hp => ?_
  obtain ⟨items, hi, listed⟩ := Enumeration.mem_of_mem_product chosen hp
  obtain ⟨field, hf, rfl⟩ := List.mem_map.mp hi
  obtain ⟨own, ho, rfl⟩ := Enumeration.mem_toList_map.mp listed
  exact h field (List.mem_filter.mp (List.mem_filter.mp hf).1).1 own ho

end Closed

end

/-! ## 3. Maps for negative tests -/

theorem SchemaError.halt_ne_endless (cause : SchemaError) : Halt.error cause ≠ .endless := by
  rintro ⟨⟩

theorem Halt.under_ne_endless (halt : Halt) (segment : String) (h : halt ≠ .endless) :
    halt.under segment ≠ .endless := by
  cases halt with
  | error cause => exact SchemaError.halt_ne_endless _
  | endless => exact absurd rfl h

namespace Outcome

variable {α β : Type}

theorem isCrash_map (f : α → β) (outcome : Outcome α) :
    (outcome.map f).isCrash = outcome.isCrash := by
  cases outcome <;> rfl

theorem isCrash_combine (f : α → β → α) (a : Outcome α) (b : Outcome β) :
    (combine f a b).isCrash = (a.isCrash || b.isCrash) := by
  cases a <;> cases b <;> rfl

theorem isCrash_foldFields (entries : Fields (Outcome α)) :
    (foldFields entries).isCrash = entries.any (·.2.isCrash) := by
  have behind (done : Outcome (Fields α)) :
      (entries.foldl (fun done entry =>
        combine (fun fields item => Fields.put entry.1 item fields) done entry.2) done).isCrash =
        (done.isCrash || entries.any (·.2.isCrash)) := by
    induction entries generalizing done with
    | nil => simp
    | cons entry rest ih => rw [List.foldl_cons, ih, isCrash_combine, List.any_cons, Bool.or_assoc]
  exact behind (pure [])

theorem isCrash_ofAttempt {attempt : Attempt α} (h : attempt.Ends (fun _ => True) (· ≠ .endless)) :
    (ofAttempt attempt).isCrash = false := by
  rcases attempt with (_ | _) | _
  · rfl
  · exact absurd rfl h
  · rfl

theorem isCrash_flatten {attempt : Attempt (Outcome α)}
    (h : attempt.Ends (fun outcome => outcome.isCrash = false) (· ≠ .endless)) :
    (flatten attempt).isCrash = false := by
  rcases attempt with (_ | _) | _
  · rfl
  · exact absurd rfl h
  · exact h

end Outcome

section Maps

variable {mutants : String → Schema → Enumeration (Outcome Schema)}
  {positives : String → Schema → Enumeration (Attempt (Option Schema))} {entries : Fields Schema}

/-- A map crashes only where a mutant does, or where a variant around it runs out of steps. -/
theorem mutantMaps_isCrash
    (own : ∀ field ∈ entries, ∀ outcome ∈ (mutants field.1 field.2).toList, outcome.isCrash = false)
    (others : ∀ field ∈ entries, ∀ item ∈ (positives field.1 field.2).toList,
      item.Ends (fun _ => True) (· ≠ .endless)) :
    ∀ outcome ∈ (mutantMaps mutants positives entries).toList, outcome.isCrash = false := by
  rw [toList_mutantMaps_parts]
  refine List.forall_mem_append.mpr ⟨?_, ?_⟩
  · intro outcome listed
    obtain ⟨parts, hp, rfl⟩ := List.mem_map.mp listed
    rw [mapOfChoice, Outcome.isCrash_map, Outcome.isCrash_foldFields, List.any_eq_false]
    intro entry hm
    obtain ⟨part, inside, rfl⟩ := List.mem_map.mp (Fields.mem_of_mem_ofList hm)
    obtain ⟨field, hf, candidate, hc, _, each, _⟩ := around_of_mem_mapParts hp
    have fine : part.2.isCrash = false := by
      obtain rfl | ⟨other, ho, listed⟩ := each part inside
      · exact (Outcome.isCrash_map _ _).trans (own field hf candidate hc)
      · obtain ⟨choice, hc, rfl⟩ := List.mem_map.mp listed
        exact Outcome.isCrash_ofAttempt (others other ho choice hc)
    rw [nested, Outcome.isCrash_under, fine]
    exact Bool.false_ne_true
  · split
    · exact List.forall_mem_nil _
    · exact List.forall_mem_singleton.mpr rfl

theorem fieldMutants_isCrash {negate : Context → Schema → Enumeration (Outcome Schema)}
    {context : Context} {schema : Schema}
    (h : ∀ child, context.enter schema true = .ok (some child) →
      ∀ outcome ∈ (negate child schema).toList, outcome.isCrash = false) :
    ∀ outcome ∈ (fieldMutants .full negate context schema).toList, outcome.isCrash = false := by
  unfold fieldMutants
  dsimp only
  split
  · next child entered =>
    rw [Enumeration.toList_closeUnless]
    refine List.forall_mem_append.mpr ⟨h child entered, ?_⟩
    split
    · exact List.forall_mem_nil _
    · split
      · exact List.forall_mem_nil _
      · exact List.forall_mem_singleton.mpr rfl
  · exact List.forall_mem_nil _
  · exact List.forall_mem_singleton.mpr rfl

/-- A mutant of a union is one of an alternative, or a crash where a scalar cannot be compared. -/
theorem unionMutants_isCrash {covers : Schema → Option Bool}
    (compared : ∀ schema, schema.isScalar = true → (covers schema).isSome)
    {negate : Context → Schema → Enumeration (Outcome Schema)} {context : Context}
    {members : List Schema}
    (h : ∀ schema ∈ members, ∀ child,
      context.enter schema (Schema.listsNull members) = .ok (some child) →
        ∀ outcome ∈ (negate child schema).toList, outcome.isCrash = false) :
    ∀ outcome ∈ (unionMutants covers negate context members).toList, outcome.isCrash = false := by
  intro outcome listed
  unfold unionMutants at listed
  dsimp only at listed
  have listed := (Enumeration.toList_distinct_sublist _ _ _ _).subset listed
  rw [Enumeration.toList_filterMap, List.mem_filterMap] at listed
  obtain ⟨candidate, hc, kept⟩ := listed
  rw [Enumeration.toList_filter, List.mem_filter, Enumeration.mem_toList_map] at hc
  obtain ⟨⟨attempt, ha, rfl⟩, _⟩ := hc
  have alternatives : ∀ item ∈ (alternativeStream (fun child schema =>
      (negate child schema).map Except.ok) context members).toList,
        item.Ends (fun outcome => outcome.isCrash = false) (· ≠ .endless) := by
    refine alternativeStream_halts (fun _ _ cause _ => cause.halt_ne_endless)
      fun schema hm child entered item hi => ?_
    obtain ⟨outcome, ho, rfl⟩ := Enumeration.mem_toList_map.mp hi
    exact h schema hm child entered outcome ho
  have fine :=
    Outcome.isCrash_flatten (settle_halts SchemaError.halt_ne_endless alternatives attempt ha)
  unfold rejectedBy at kept
  split at kept
  · next schema _ =>
    split at kept
    · next scalar =>
      obtain ⟨covered, told⟩ := Option.isSome_iff_exists.mp (compared schema scalar)
      rw [told] at kept
      cases covered with
      | true => cases kept
      | false => exact Option.some.inj kept ▸ fine
    · exact Option.some.inj kept ▸ fine
  · exact Option.some.inj kept ▸ fine

end Maps

end DataContract
