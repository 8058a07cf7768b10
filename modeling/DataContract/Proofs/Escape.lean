import Mathlib
import DataContract.Proofs.Halting
import DataContract.Proofs.Wording

/-!
# Recursion that can end everywhere

Where every part that is tracked under a name stands at a place which can end the recursion, no
cycle error comes to the surface: each of the three computations absorbs a name that is entered
again in its own way, and none of them ever starts an error.

1. `Schema.Escapes`: such places are optional keys, alternatives beside null, and items. There a
   name that is entered again is never an error (`Schema.enter_ne_error`).
2. `Schema.generateWithin_acyclic`: no value is refused as a cycle.
3. `Schema.variantsWithin_unrelated`: no item for a positive test tells of a cycle.
4. `Schema.mutantsWithin_unrelated`: nor does a failure among the items for negative tests.
5. `Schema.never_cycle`: the three together.
-/

namespace DataContract

open Gen

/-! ## 1. Places that can end a recursion -/

namespace Schema

/-- Every part that is tracked under a name, because it is a reference or has a title, is behind an
optional key or beside null. An item needs no condition, and neither does a schema that is no
part. -/
def Escapes : Schema → Prop
  | object fields _ => ∀ field ∈ fields, Key.isOptional field.1 = true ∨ field.2.identity = none
  | union members _ _ _ => listsNull members = true ∨ ∀ schema ∈ members, schema.identity = none
  | _ => True

instance : DecidablePred Escapes
  | object fields _ => inferInstanceAs
      (Decidable (∀ field ∈ fields, Key.isOptional field.1 = true ∨ field.2.identity = none))
  | union members _ _ _ => inferInstanceAs
      (Decidable (listsNull members = true ∨ ∀ schema ∈ members, schema.identity = none))
  | string _ _ | number _ _ _ | boolean _ | null | literal _ _ | reference _ | list _ _ _ =>
    .isTrue trivial

variable {context : Context} {schema : Schema} {nullable : Bool}

/-- At such a place nothing is refused. -/
theorem enter_ne_error (h : nullable = true ∨ schema.identity = none) {cause : SchemaError} :
    context.enter schema nullable ≠ .error cause := by
  rcases h with rfl | untracked
  · exact Context.enter_nullable_ne_error
  · unfold Context.enter
    rw [untracked]
    exact nofun

end Schema

/-! ## 2. Values -/

/-- No cycle error, whatever numbers are drawn. -/
def Gen.Acyclic {α : Type} (body : Gen α) : Prop :=
  body.Ends (fun _ => True) fun halt => halt.isCycle = false

namespace Gen.Acyclic

variable {α β : Type}

theorem bind {body : Gen α} {next : α → Gen β} (h : body.Acyclic) (hn : ∀ a, (next a).Acyclic) :
    (body >>= next).Acyclic :=
  ends_bind (ends_mono h (fun a _ => hn a) fun _ => id)

theorem draw (source : Draw α) : (Gen.draw source).Acyclic := ends_draw fun _ => trivial

theorem pure (a : α) : (Pure.pure a : Gen α).Acyclic := ends_pure trivial

theorem under (segment : String) {body : Gen α} (h : body.Acyclic) : (body.under segment).Acyclic :=
  ends_under segment (ends_mono h (fun _ => id) fun halt fine =>
    (halt.isCycle_under segment).trans fine)

/-- An attempt that does not tell of a cycle does not end in one. -/
theorem attempt {result : Attempt α} (h : result.Messages Unrelated) :
    (Gen.attempt result).Acyclic := by
  refine ends_attempt ?_
  cases result with
  | ok a => trivial
  | error halt =>
    cases halt with
    | error cause => exact SchemaError.not_isCycle_of_unrelated h
    | endless => rfl

theorem protect {body : Context → Gen α} {context : Context} {schema : Schema} {nullable : Bool}
    (place : nullable = true ∨ schema.identity = none)
    (h : ∀ stack, (body { context with expanding := stack }).Acyclic) :
    (context.protect schema nullable body : Gen (Option α)).Acyclic := by
  refine Context.ends_protect (fun cause he => (Schema.enter_ne_error place he).elim)
    (fun _ => trivial) fun child he => ?_
  obtain ⟨stack, rfl⟩ := Context.expanding_of_enter he
  exact ends_mono (h stack) (fun _ _ => trivial) fun _ fine _ => fine

end Gen.Acyclic

section Make

variable {make : Context → Schema → Gen Value}

theorem generateKeyed_acyclic {context : Context} {schema : Schema} (key : Option String)
    (h : (make context schema).Acyclic) : (generateKeyed make context key schema).Acyclic :=
  generateKeyed_ends rfl h

theorem generateFields_acyclic {context : Context} {fields : List (String × Schema)}
    {done : Fields Value}
    (escapes : ∀ field ∈ fields, Key.isOptional field.1 = true ∨ field.2.identity = none)
    (h : ∀ field ∈ fields, ∀ stack, (make { context with expanding := stack } field.2).Acyclic) :
    (generateFields make context fields done).Acyclic := by
  refine generateFields_halts (fun halt segment fine => (halt.isCycle_under segment).trans fine)
    (fun field hf cause he => ?_) fun field hf child he => ?_
  · exact (Schema.enter_ne_error (escapes field hf) he).elim
  · obtain ⟨stack, rfl⟩ := Context.expanding_of_enter he
    exact ends_mono (generateKeyed_acyclic _ (h field hf stack)) (fun _ => id) fun _ fine _ => fine

theorem generateItems_acyclic {make : Gen (Option Value)} (h : make.Acyclic) (place count : Nat) :
    (generateItems make place count).Acyclic :=
  generateItems_ends (fun halt segment fine => (halt.isCycle_under segment).trans
    fine) h place count

end Make

namespace Schema

/-- No value is refused as a cycle. The induction is on the steps, over every stack of
expansions. -/
theorem generateWithin_acyclic {context : Context}
    (registered : context.registry.Everywhere Escapes)
    (fuel : Nat) (stack : List Frame) {schema : Schema} (escapes : schema.Everywhere Escapes) :
    (generateWithin fuel { context with expanding := stack } schema).Acyclic := by
  induction fuel generalizing stack schema with
  | zero => exact ends_throw rfl
  | succ fuel ih =>
    have plain {body : Gen Value} (h : body.Ends (fun _ => True) Halt.Plain) : body.Acyclic :=
      ends_mono h (fun _ => id) fun halt fine => by
        cases halt with
        | error cause => exact fine
        | endless => rfl
    unfold generateWithin
    refine .bind (.attempt (ownExample_unrelated _ _)) fun example? => ?_
    cases example? with
    | some value => exact .pure _
    | none =>
      cases schema with
      | string range sample => exact plain (string range sample).scalarHalts_plain
      | number range fractional sample =>
        exact plain (number range fractional sample).scalarHalts_plain
      | boolean sample => exact .bind (.draw _) fun _ => .pure _
      | null => exact .pure _
      | literal value title => exact .pure _
      | reference name =>
        simp only [Registry.lookup]
        cases found : context.registry.find? name with
        | none => exact ends_throw rfl
        | some target => exact ih stack (registered.target found)
      | object fields title =>
        obtain ⟨places, below⟩ := everywhere_object.mp escapes
        refine .bind (generateFields_acyclic places fun field hf stack => ?_) fun _ => .pure _
        exact ih stack (below field hf)
      | list item title sample =>
        obtain ⟨_, below⟩ := everywhere_list.mp escapes
        refine .bind (.draw _) fun count =>
          .bind (generateItems_acyclic ?_ 0 count) fun _ => .pure _
        exact .protect (.inl rfl) fun stack => ih stack below
      | union members key title sample =>
        obtain ⟨places, below⟩ := everywhere_union.mp escapes
        refine ends_bind (ends_draw fun rng => ?_)
        cases hc : (Draw.choose members rng).1 with
        | none => exact ends_throw rfl
        | some pick =>
          have hm := Draw.choose_mem hc
          refine Acyclic.bind (.protect (places.imp_right fun free => free pick hm) fun stack => ?_)
            fun _ => .pure _
          exact generateKeyed_acyclic key (ih stack (below pick hm))

end Schema

/-! ## 3. Items for positive tests -/

section Parts

variable {p : String → Prop}

theorem mem_alternativeStream_messages {α : Type} {context : Context} {members : List Schema}
    {derive : Context → Schema → Enumeration (Attempt α)}
    (places : Schema.listsNull members = true ∨ ∀ schema ∈ members, schema.identity = none)
    (h : ∀ schema ∈ members, ∀ stack,
      ∀ item ∈ (derive { context with expanding := stack } schema).toList, item.Messages p) :
    ∀ item ∈ (alternativeStream derive context members).toList, item.Messages p := by
  refine alternativeStream_halts (fun schema hm cause he => ?_) fun schema hm child he => ?_
  · exact (Schema.enter_ne_error (places.imp_right fun free => free schema hm) he).elim
  · obtain ⟨stack, rfl⟩ := Context.expanding_of_enter he
    exact h schema hm stack

theorem fieldVariants_messages {context : Context} {key : String} {schema : Schema}
    {derive : Context → Schema → Enumeration (Attempt Schema)}
    (place : Key.isOptional key = true ∨ schema.identity = none)
    (h : ∀ stack, ∀ item ∈ (derive { context with expanding := stack } schema).toList,
      item.Messages p) :
    ∀ item ∈ (fieldVariants derive context .empty key schema).toList, item.Messages p := by
  refine fieldVariants_halts (fun _ bound => (Row.not_bound_empty bound).elim)
    (fun cause he => (Schema.enter_ne_error place he).elim) fun child he => ?_
  obtain ⟨stack, rfl⟩ := Context.expanding_of_enter he
  exact h stack

end Parts

namespace Schema

/-- No item for a positive test tells of a cycle. -/
theorem variantsWithin_unrelated {context : Context}
    (registered : context.registry.Everywhere Escapes) (fuel : Nat) (stack : List Frame)
    {schema : Schema} (escapes : schema.Everywhere Escapes) :
    ∀ item ∈ (variantsWithin fuel { context with expanding := stack } .empty schema).toList,
      item.Messages Unrelated := by
  induction fuel generalizing stack schema with
  | zero => exact List.forall_mem_singleton.mpr trivial
  | succ fuel ih =>
    unfold variantsWithin
    cases schema with
    | string range sample => exact List.forall_mem_singleton.mpr (exampleOrSelf_unrelated _ _)
    | number range fractional sample =>
      exact List.forall_mem_singleton.mpr (exampleOrSelf_unrelated _ _)
    | boolean sample => exact List.forall_mem_singleton.mpr (exampleOrSelf_unrelated _ _)
    | null => exact List.forall_mem_singleton.mpr trivial
    | literal value title => exact List.forall_mem_singleton.mpr trivial
    | reference name =>
      simp only [Registry.lookup]
      cases found : context.registry.find? name with
      | none => exact List.forall_mem_singleton.mpr (SchemaError.unknown_unrelated _)
      | some target => exact ih stack (registered.target found)
    | object fields title =>
      obtain ⟨places, below⟩ := everywhere_object.mp escapes
      intro item listed
      obtain ⟨choice, hc, rfl⟩ := Enumeration.mem_toList_map.mp (mem_of_mem_capped listed)
      have fine := combinationVariants_halts (fun _ segment => Halt.Messages.under segment)
        (fun field hf =>
          fieldVariants_messages (places field hf) fun stack => ih stack (below field hf)) choice hc
      cases choice with
      | ok fields => trivial
      | error halt => exact fine
    | list item title sample =>
      obtain ⟨_, below⟩ := everywhere_list.mp escapes
      simp only
      split
      · exact List.forall_mem_singleton.mpr (exampleOrSelf_unrelated _ _)
      · split
        · next child he =>
          obtain ⟨stack, rfl⟩ := Context.expanding_of_enter he
          intro variant listed
          obtain ⟨own, ho, rfl⟩ := Enumeration.mem_toList_map.mp listed
          exact listVariant_halts (fun _ segment => Halt.Messages.under segment) title
            (ih stack below own ho)
        · exact List.forall_mem_singleton.mpr trivial
        · next refused => exact (Context.enter_nullable_ne_error refused).elim
    | union members key title sample =>
      obtain ⟨places, below⟩ := everywhere_union.mp escapes
      have examples := exampleOfAny_unrelated { context with expanding := stack } sample members
      simp only
      revert examples
      cases exampleOfAny { context with expanding := stack } sample members with
      | error halt => exact fun told => List.forall_mem_singleton.mpr told
      | ok example? =>
        intro _
        cases example? with
        | some value => exact List.forall_mem_singleton.mpr trivial
        | none =>
          refine mem_settle_unrelated (by decide +kernel) fun item listed => ?_
          unfold unionStream at listed
          rw [Enumeration.toList_filter] at listed
          exact mem_alternativeStream_messages places (fun schema hm stack =>
            ih stack (below schema hm)) item (List.mem_filter.mp listed).1

end Schema

/-! ## 4. Items for negative tests -/

/-- A condition on every message of the failure of an outcome. -/
def Outcome.Messages {α : Type} (p : String → Prop) (outcome : Outcome α) : Prop :=
  ∀ failure, outcome = .failed failure → failure.Messages p

namespace Outcome.Messages

variable {α β : Type} {p : String → Prop}

theorem pure (a : α) : (Outcome.pure a).Messages p := nofun

theorem failed {failure : Failure} (h : failure.Messages p) :
    (Outcome.failed failure : Outcome α).Messages p := by
  rintro _ ⟨⟩
  exact h

theorem map (f : α → β) {outcome : Outcome α} (h : outcome.Messages p) :
    (outcome.map f).Messages p := by
  cases outcome with
  | failed failure => exact failed (h failure rfl)
  | value _ _ => exact nofun
  | crashed _ _ _ => exact nofun

theorem under (segment : String) {outcome : Outcome α} (h : outcome.Messages p) :
    (outcome.under segment).Messages p := by
  cases outcome with
  | failed failure => exact failed (Failure.Messages.under segment (h failure rfl))
  | value _ _ => exact nofun
  | crashed _ _ _ => exact nofun

theorem ofAttempt {attempt : Attempt α} (h : attempt.Messages p) :
    (Outcome.ofAttempt attempt).Messages p := by
  rcases attempt with (cause | _) | a
  · exact failed h
  · exact nofun
  · exact nofun

theorem combine (silent : p "") {f : α → β → α} {a : Outcome α} {b : Outcome β}
    (ha : a.Messages p) (hb : b.Messages p) : (Outcome.combine f a b).Messages p := by
  cases a with
  | value _ _ => cases b with
    | value _ _ => exact nofun
    | failed failure => exact failed (hb failure rfl)
    | crashed _ _ _ => exact nofun
  | failed failure => cases b with
    | value _ _ => exact failed (ha failure rfl)
    | failed other =>
      refine failed (Failure.Messages.all silent fun cause hm => ?_)
      rcases List.mem_pair.mp hm with rfl | rfl
      · exact ha _ rfl
      · exact hb _ rfl
    | crashed _ _ _ => exact nofun
  | crashed _ _ _ => cases b <;> exact nofun

theorem foldFields (silent : p "") {entries : Fields (Outcome α)}
    (h : ∀ entry ∈ entries, entry.2.Messages p) : (Outcome.foldFields entries).Messages p := by
  unfold Outcome.foldFields
  generalize hd : Outcome.pure [] = done
  have fine : done.Messages p := hd ▸ pure _
  clear hd
  induction entries generalizing done with
  | nil => exact fine
  | cons entry rest ih =>
    obtain ⟨own, others⟩ := List.forall_mem_cons.mp h
    exact ih others _ (combine silent fine own)

end Outcome.Messages

section Maps

variable {p : String → Prop} {mutants : String → Schema → Enumeration (Outcome Schema)}
  {positives : String → Schema → Enumeration (Attempt (Option Schema))} {entries : Fields Schema}

/-- Maps tell of nothing that their parts do not tell of. -/
theorem mutantMaps_messages (silent : p "")
    (own : ∀ field ∈ entries, ∀ outcome ∈ (mutants field.1 field.2).toList, outcome.Messages p)
    (others : ∀ field ∈ entries, ∀ item ∈ (positives field.1 field.2).toList, item.Messages p) :
    ∀ outcome ∈ (mutantMaps mutants positives entries).toList, outcome.Messages p := by
  rw [toList_mutantMaps_parts]
  refine List.forall_mem_append.mpr ⟨?_, ?_⟩
  · intro outcome listed
    obtain ⟨parts, hp, rfl⟩ := List.mem_map.mp listed
    refine .map _ (.foldFields silent fun entry hm => ?_)
    obtain ⟨part, inside, rfl⟩ := List.mem_map.mp (Fields.mem_of_mem_ofList hm)
    refine .under _ ?_
    obtain ⟨field, hf, candidate, hc, _, each, _⟩ := around_of_mem_mapParts hp
    obtain rfl | ⟨other, ho, listed⟩ := each part inside
    · exact .map _ (own field hf candidate hc)
    · obtain ⟨choice, hc, rfl⟩ := List.mem_map.mp listed
      exact .ofAttempt (others other ho choice hc)
  · split
    · exact List.forall_mem_nil _
    · exact List.forall_mem_singleton.mpr (.pure _)

theorem rejectedBy_messages {covers : Schema → Option Bool} {candidate kept : Outcome Schema}
    (h : rejectedBy covers candidate = some kept) (fine : candidate.Messages p) :
    kept.Messages p := by
  unfold rejectedBy at h
  split at h
  · split at h
    · split at h
      · cases h
      · cases h
        exact fine
      · cases h
        exact nofun
    · cases h
      exact fine
  · cases h
    exact fine

/-- The mutants of a union tell of nothing that those of its alternatives do not tell of. -/
theorem unionMutants_unrelated {covers : Schema → Option Bool}
    {negate : Context → Schema → Enumeration (Outcome Schema)} {context : Context}
    {members : List Schema}
    (places : Schema.listsNull members = true ∨ ∀ schema ∈ members, schema.identity = none)
    (h : ∀ schema ∈ members, ∀ stack,
      ∀ outcome ∈ (negate { context with expanding := stack } schema).toList,
        outcome.Messages Unrelated) :
    ∀ outcome ∈ (unionMutants covers negate context members).toList,
        outcome.Messages Unrelated := by
  intro outcome listed
  unfold unionMutants at listed
  simp only at listed
  have listed := (Enumeration.toList_distinct_sublist _ _ _ _).subset listed
  rw [Enumeration.toList_filterMap, List.mem_filterMap] at listed
  obtain ⟨candidate, hc, kept⟩ := listed
  rw [Enumeration.toList_filter, List.mem_filter, Enumeration.mem_toList_map] at hc
  obtain ⟨⟨attempt, ha, rfl⟩, _⟩ := hc
  refine rejectedBy_messages kept ?_
  rcases attempt with (cause | _) | own
  · have told := mem_settle_unrelated (by decide +kernel)
      (mem_alternativeStream_messages places fun schema _ stack item hi => by
        obtain ⟨own, _, rfl⟩ := Enumeration.mem_toList_map.mp hi
        trivial) _ ha
    exact .failed told
  · exact nofun
  · obtain ⟨schema, hm, stack, listed⟩ :=
      Schema.mem_of_mem_alternativeStream (Schema.mem_of_mem_settle ha)
    obtain ⟨outcome, ho, same⟩ := Enumeration.mem_toList_map.mp listed
    cases same
    exact h schema hm stack own ho

end Maps

namespace Schema

/-- No failure among the items for negative tests tells of a cycle. -/
theorem mutantsWithin_unrelated {context : Context}
    (registered : context.registry.Everywhere Escapes) (fuel : Nat) (stack : List Frame)
    {schema : Schema} (escapes : schema.Everywhere Escapes) :
    ∀ outcome ∈ (mutantsWithin fuel { context with expanding := stack } .empty schema).toList,
      outcome.Messages Unrelated := by
  induction fuel generalizing stack schema with
  | zero => exact List.forall_mem_singleton.mpr nofun
  | succ fuel ih =>
    have scalars (schemas : List Schema) :
        ∀ outcome ∈ (Enumeration.ofList (schemas.map Outcome.pure)).toList,
          outcome.Messages Unrelated := by
      rw [Enumeration.toList_ofList]
      exact List.forall_mem_map.mpr fun _ _ => .pure _
    unfold mutantsWithin
    cases schema with
    | string range sample => exact scalars _
    | number range fractional sample => exact scalars _
    | boolean sample => exact scalars _
    | null => exact List.forall_mem_nil _
    | literal value title => exact scalars _
    | reference name =>
      simp only [Registry.lookup]
      cases found : context.registry.find? name with
      | none => exact List.forall_mem_singleton.mpr (.failed (SchemaError.unknown_unrelated _))
      | some target => exact ih stack (registered.target found)
    | object fields title =>
      obtain ⟨places, below⟩ := everywhere_object.mp escapes
      have kept {field : String × Schema} (hf : field ∈ Row.empty.kept fields) : field ∈ fields :=
        (List.mem_filter.mp hf).1
      intro outcome listed
      obtain ⟨maps, hm, rfl⟩ := Enumeration.mem_toList_map.mp listed
      refine .map _ (mutantMaps_messages unrelated_empty ?_ ?_ maps hm)
      · intro field hf mutant listed
        rcases mem_fieldMutants listed with ⟨stack, listed⟩ | ⟨rfl, _⟩
        · exact ih stack (below field (kept hf)) mutant listed
        · exact .pure _
      · intro field hf
        exact fieldVariants_messages (places field (kept hf)) fun stack =>
          variantsWithin_unrelated registered _ stack (below field (kept hf))
    | list item title sample =>
      obtain ⟨_, below⟩ := everywhere_list.mp escapes
      simp only [Enumeration.toList_append]
      refine List.forall_mem_append.mpr ⟨scalars _, ?_⟩
      split
      · next child he =>
        obtain ⟨stack, rfl⟩ := Context.expanding_of_enter he
        intro outcome listed
        obtain ⟨own, ho, rfl⟩ := Enumeration.mem_toList_map.mp listed
        exact .under _ (.map _ (ih stack below own ho))
      · exact List.forall_mem_nil _
      · next refused => exact (Context.enter_nullable_ne_error refused).elim
    | union members key title sample =>
      obtain ⟨places, below⟩ := everywhere_union.mp escapes
      exact unionMutants_unrelated places fun schema hm stack => ih stack (below schema hm)

/-! ## 5. No cycle error -/

/-- Where every part that is tracked under a name stands at a place that can end a recursion, in the
schema and in everything that is registered, no cycle error comes to the surface, whatever is under
expansion: no value is refused as a cycle, no item for a positive test is a cycle error, and no
failure among the items for negative tests reports one. -/
theorem never_cycle {context : Context} {schema : Schema} (escapes : schema.Everywhere Escapes)
    (registered : context.registry.Everywhere Escapes) :
    (∀ rng halt, ((schema.generate context).runFrom rng).1 = .error halt → halt.isCycle = false) ∧
      (∀ item ∈ (schema.variants context .empty).toList, item.isCycle = false) ∧
      ∀ failure, .failed failure ∈ (schema.mutants context .empty).toList →
        ∀ leaf ∈ failure.leaves, ∀ message ∈ leaf.messages,
          ∀ stack, message ≠ (SchemaError.cycle stack).message := by
  refine ⟨fun rng halt run => ?_, fun item listed => ?_,
    fun failure listed leaf hl message hm => ?_⟩
  · have ended := generateWithin_acyclic registered
      (schema.expansionBudget context.registry) context.expanding escapes rng
    show halt.isCycle = false
    unfold generate at run
    rw [run] at ended
    exact ended
  · have told := variantsWithin_unrelated registered
      (schema.expansionBudget context.registry) context.expanding escapes item listed
    rcases item with (cause | _) | candidate
    · have other := SchemaError.not_isCycle_of_unrelated told
      cases cause with
      | cycle stack => cases other
      | _ => rfl
    · rfl
    · rfl
  · have told := mutantsWithin_unrelated registered
      (schema.expansionBudget context.registry) context.expanding escapes _ listed failure rfl
    exact (told.leaves leaf hl message hm).ne_cycle

end Schema

/-- People who may have a manager, a deputy or none, and reports, each of them a person. -/
def staff : Registry :=
  Registry.initial.register "Person" (.object [("name", .text), ("manager?", .named "Person"),
    ("deputy", .nullable (.named "Person")), ("reports?", .list (.named "Person") none none)]
    (some "Person"))

/-- All three kinds of places that can end a recursion, on one name. -/
theorem never_cycle_staff :
    (Schema.named "Person").Everywhere Schema.Escapes ∧ staff.Everywhere Schema.Escapes ∧
      (∀ rng halt, (((Schema.named "Person").generate (.ofRegistry staff)).runFrom rng).1 =
        .error halt → halt.isCycle = false) ∧
      (∀ item ∈ ((Schema.named "Person").variants (.ofRegistry staff) .empty).toList,
        item.isCycle = false) ∧
      ∀ failure, .failed failure ∈
        ((Schema.named "Person").mutants (.ofRegistry staff) .empty).toList →
          ∀ leaf ∈ failure.leaves, ∀ message ∈ leaf.messages,
            ∀ stack, message ≠ (SchemaError.cycle stack).message := by
  have escapes : (Schema.named "Person").Everywhere Schema.Escapes := by decide +kernel
  have registered : staff.Everywhere Schema.Escapes := by decide +kernel
  exact ⟨escapes, registered, Schema.never_cycle escapes registered⟩

end DataContract
