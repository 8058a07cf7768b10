import Mathlib
import DataContract.Proofs.Halting
import DataContract.Proofs.Locality
import DataContract.Proofs.ScalarCover

/-!
# Generation and derivation end

Over a registry without loops the three computations over schemas never run out of steps, in
synthesis and without a dictionary or a row. Each section has the step first, from the schemas that
are expanded next to the schema itself, and `Schema.expand_induction` makes it a run.

1. `Gen.Finishes`: a generation that does not run out of steps (`Schema.generate_finishes`).
2. `Schema.variants_finish_of_literals`: no item for a positive test runs out of steps, if no
   literal on the way does. In synthesis and without a row there is none (`Schema.variants_finish`).
3. `Schema.mutants_finish`: no item for a negative test crashes.
4. `Schema.expansion_finishes`: the three together, and the stacks on the way.
-/

namespace DataContract

open Gen

/-! ## 1. Values -/

/-- The generation does not run out of steps, whatever numbers are drawn. -/
def Gen.Finishes {α : Type} (body : Gen α) : Prop := body.Ends (fun _ => True) (· ≠ .endless)

namespace Schema

variable {context : Context} {stack : List Frame} {schema : Schema} {fuel : Nat}

/-- A generation finishes when those of the schemas that are expanded next do. -/
theorem generateWithin_finishes (mode : context.mode = .synthesize)
    (empty : context.dictionary = [])
    (h : ∀ stack' part, Expands context (stack, schema) (stack', part) →
      (generateWithin fuel { context with expanding := stack' } part).Finishes) :
    (generateWithin (fuel + 1) { context with expanding := stack } schema).Finishes := by
  have plain {body : Gen Value} {value : Value → Prop} (ended : body.Ends value Halt.Plain) :
      body.Finishes := by
    refine ends_mono ended (fun _ _ => trivial) fun halt fine => ?_
    cases halt with
    | error cause => exact cause.halt_ne_endless
    | endless => exact fine.elim
  have entered {key : Option String} {part : Schema} {nullable : Bool} {child : Context}
      (he : ({ context with expanding := stack } : Context).enter part nullable = .ok (some child))
      (step : ∀ stack', child = { context with expanding := stack' } →
        Expands context (stack, schema) (stack', part)) :
      (generateKeyed (generateWithin fuel) child key part).Finishes := by
    obtain ⟨stack', rfl⟩ := Context.expanding_of_enter he
    exact generateKeyed_halts empty (h stack' part (step stack' rfl))
  unfold generateWithin
  refine ends_bind (ends_attempt ?_)
  rw [@ownExample_of_synthesize { context with expanding := stack } mode]
  cases schema with
  | string range sample => exact plain range.ends_generate
  | number range fractional sample => exact plain (range.ends_generate fractional)
  | boolean sample => exact ends_bind (ends_draw fun _ => ends_pure trivial)
  | null => exact ends_pure trivial
  | literal value title => exact ends_pure trivial
  | reference name =>
    simp only [Registry.lookup]
    cases found : context.registry.find? name with
    | none => exact ends_bind (ends_throw (SchemaError.halt_ne_endless _))
    | some target => exact ends_bind (ends_pure (h stack target (.follow found)))
  | object fields title =>
    refine ends_bind (ends_mono (generateFields_halts Halt.under_ne_endless
      (fun _ _ cause _ => cause.halt_ne_endless) fun field hf child he => ?_)
      (fun _ _ => ends_pure trivial) fun _ => id)
    exact ends_mono (entered he fun stack' same => .field hf (.inl rfl) (same ▸ he)) (fun _ => id)
      fun _ fine _ => fine
  | list item title sample =>
    have make : (({ context with expanding := stack } : Context).protect item true fun child =>
        generateWithin fuel child item : Gen (Option Value)).Finishes := by
      refine Context.ends_protect (fun cause _ => cause.halt_ne_endless) (fun _ => trivial)
        fun child he => ?_
      obtain ⟨stack', rfl⟩ := Context.expanding_of_enter he
      exact ends_mono (h stack' item (.item he)) (fun _ => id) fun _ fine _ => fine
    refine ends_bind (ends_draw fun _ => ends_bind ?_)
    exact ends_mono (generateItems_ends Halt.under_ne_endless make 0 _)
      (fun _ _ => ends_pure trivial) fun _ => id
  | union members key title sample =>
    refine ends_bind (ends_draw fun rng => ?_)
    cases chosen : (Draw.choose members rng).1 with
    | none => exact ends_throw (SchemaError.halt_ne_endless _)
    | some pick =>
      have part : (({ context with expanding := stack } : Context).protect pick (listsNull members)
          fun child => generateKeyed (generateWithin fuel) child key pick :
          Gen (Option Value)).Finishes := by
        refine Context.ends_protect (fun cause _ => cause.halt_ne_endless) (fun _ => trivial)
          fun child he => ?_
        refine ends_mono (entered he fun stack' same => ?_) (fun _ => id) fun _ fine _ => fine
        exact .member (Draw.choose_mem chosen) (same ▸ he)
      exact ends_bind (ends_mono part (fun _ _ => ends_pure trivial) fun _ => id)

/-- No generation runs out of steps. -/
theorem generate_finishes (loopFree : context.registry.LoopFree) (mode : context.mode = .synthesize)
    (empty : context.dictionary = []) (schema : Schema) : (schema.generate context).Finishes :=
  expand_induction (P := fun fuel stack schema =>
      (generateWithin fuel { context with expanding := stack } schema).Finishes)
    loopFree (fun _ _ _ h => generateWithin_finishes mode empty h) context.expanding schema
    (Nat.le_refl _)

/-! ## 2. Items for positive tests -/

/-- Examples and the literals of a row are read and checked without running out of steps. -/
structure LiteralsFinish (context : Context) (row : Row) : Prop where
  examples : ∀ stack sample schema,
    (exampleValue { context with expanding := stack } sample schema).Ends (fun _ => True)
      (· ≠ .endless)
  bound : ∀ stack name literal schema, row.literal? name = some literal →
    (rowLiteral { context with expanding := stack } literal schema).Ends (fun _ => True)
      (· ≠ .endless)

/-- In synthesis no example is read, and an empty row has no literal. -/
theorem literalsFinish_of_synthesize (mode : context.mode = .synthesize) :
    LiteralsFinish context .empty := by
  refine ⟨fun stack sample schema => ?_, fun _ _ _ _ bound => (Row.not_bound_empty bound).elim⟩
  unfold exampleValue
  dsimp only
  rw [mode]
  split
  · contradiction
  · trivial

theorem firstExample_finishes {sample : String} {members : List Schema} (h : ∀ schema ∈ members,
      (exampleValue context (some sample) schema).Ends (fun _ => True) (· ≠ .endless)) :
    (firstExample context sample members).Ends (fun _ => True) (· ≠ .endless) := by
  induction members with
  | nil => trivial
  | cons schema rest ih =>
    obtain ⟨own, others⟩ := List.forall_mem_cons.mp h
    unfold firstExample
    split
    · trivial
    · next read =>
      rw [read] at own
      exact own
    · exact Attempt.ends_bind (Attempt.ends_mono (ih others)
        (fun result _ => by cases result <;> trivial) fun _ => id)

theorem exampleOfAny_finishes {sample : Option String} {members : List Schema}
    (h : ∀ sample schema,
      (exampleValue context sample schema).Ends (fun _ => True) (· ≠ .endless)) :
    (exampleOfAny context sample members).Ends (fun _ => True) (· ≠ .endless) := by
  unfold exampleOfAny
  split
  · refine Attempt.ends_bind (Attempt.ends_mono (firstExample_finishes fun schema _ => h _ schema)
      (fun result _ => ?_) fun _ => id)
    cases result with
    | ok value? => trivial
    | error failures => exact SchemaError.halt_ne_endless _
  · trivial

/-- The items for positive tests finish when those of the schemas that are expanded next do, and the
literals on the way are read. -/
theorem variantsWithin_finishes {row : Row} (literals : LiteralsFinish context row)
    (h : ∀ stack' part, Expands context (stack, schema) (stack', part) →
      ∀ item ∈ (variantsWithin fuel { context with expanding := stack' } row part).toList,
        item.Ends (fun _ => True) (· ≠ .endless)) :
    ∀ item ∈ (variantsWithin (fuel + 1) { context with expanding := stack } row schema).toList,
      item.Ends (fun _ => True) (· ≠ .endless) := by
  have entered {part : Schema} {nullable : Bool} {child : Context}
      (he : ({ context with expanding := stack } : Context).enter part nullable = .ok (some child))
      (step : ∀ stack', child = { context with expanding := stack' } →
        Expands context (stack, schema) (stack', part)) :
      ∀ item ∈ (variantsWithin fuel child row part).toList,
        item.Ends (fun _ => True) (· ≠ .endless) := by
    obtain ⟨stack', rfl⟩ := Context.expanding_of_enter he
    exact h stack' part (step stack' rfl)
  have self (schema : Schema) :
      (exampleOrSelf { context with expanding := stack } schema).Ends (fun _ => True)
        (· ≠ .endless) := by
    have own := literals.examples stack schema.sample? schema
    unfold exampleOrSelf
    revert own
    cases exampleValue { context with expanding := stack } schema.sample? schema <;> exact id
  unfold variantsWithin
  cases schema with
  | string | number | boolean => exact List.forall_mem_singleton.mpr (self _)
  | null | literal => exact List.forall_mem_singleton.mpr trivial
  | reference name =>
    simp only [Registry.lookup]
    cases found : context.registry.find? name with
    | none => exact List.forall_mem_singleton.mpr (SchemaError.halt_ne_endless _)
    | some target => exact h stack target (.follow found)
  | object fields title =>
    intro item listed
    obtain ⟨choice, hc, rfl⟩ := Enumeration.mem_toList_map.mp (mem_of_mem_capped listed)
    have fine := combinationVariants_halts Halt.under_ne_endless (fun field hf =>
      fieldVariants_halts (fun literal found => literals.bound stack _ literal _ found)
        (fun cause _ => cause.halt_ne_endless) fun child he =>
          entered he fun stack' same => .field hf (.inl rfl) (same ▸ he)) choice hc
    cases choice with
    | ok fields => trivial
    | error halt => exact fine
  | list item title sample =>
    dsimp only
    split
    · exact List.forall_mem_singleton.mpr (self _)
    · split
      · next child he =>
        intro variant listed
        obtain ⟨own, ho, rfl⟩ := Enumeration.mem_toList_map.mp listed
        exact listVariant_halts Halt.under_ne_endless title
          (entered he (fun stack' same => .item (same ▸ he)) own ho)
      · exact List.forall_mem_singleton.mpr trivial
      · exact List.forall_mem_singleton.mpr (SchemaError.halt_ne_endless _)
  | union members key title sample =>
    have own := @exampleOfAny_finishes _ sample members (literals.examples stack)
    dsimp only
    split
    · exact List.forall_mem_singleton.mpr trivial
    · next halt read =>
      rw [read] at own
      exact List.forall_mem_singleton.mpr own
    · refine settle_halts SchemaError.halt_ne_endless fun item listed => ?_
      unfold unionStream at listed
      rw [Enumeration.toList_filter] at listed
      refine alternativeStream_halts (fun _ _ cause _ => cause.halt_ne_endless)
        (fun schema hm child he => ?_) item (List.mem_filter.mp listed).1
      exact entered he fun stack' same => .member hm (same ▸ he)

/-- No item for a positive test runs out of steps, as long as no literal does. -/
theorem variants_finish_of_literals (loopFree : context.registry.LoopFree) {row : Row}
    (literals : LiteralsFinish context row) (schema : Schema) :
    ∀ item ∈ (schema.variants context row).toList, item.Ends (fun _ => True) (· ≠ .endless) :=
  expand_induction (P := fun fuel stack schema =>
      ∀ item ∈ (variantsWithin fuel { context with expanding := stack } row schema).toList,
        item.Ends (fun _ => True) (· ≠ .endless))
    loopFree (fun _ _ _ h => variantsWithin_finishes literals h) context.expanding schema
    (Nat.le_refl _)

/-- No item for a positive test runs out of steps. -/
theorem variants_finish (loopFree : context.registry.LoopFree) (mode : context.mode = .synthesize)
    (schema : Schema) :
    ∀ item ∈ (schema.variants context .empty).toList, item.Ends (fun _ => True) (· ≠ .endless) :=
  variants_finish_of_literals loopFree (literalsFinish_of_synthesize mode) schema

/-! ## 3. Items for negative tests -/

/-- The items for negative tests finish when those of the schemas that are expanded next do, and the
variants around a mutated field. -/
theorem mutantsWithin_finishes
    (others : ∀ stack' part,
      ∀ item ∈ (variants { context with expanding := stack' } .empty part).toList,
      item.Ends (fun _ => True) (· ≠ .endless))
    (h : ∀ stack' part, Expands context (stack, schema) (stack', part) →
      ∀ outcome ∈ (mutantsWithin fuel { context with expanding := stack' } .empty part).toList,
        outcome.isCrash = false) :
    ∀ outcome ∈ (mutantsWithin (fuel + 1) { context with expanding := stack } .empty schema).toList,
      outcome.isCrash = false := by
  have entered {part : Schema} {nullable : Bool} {child : Context}
      (he : ({ context with expanding := stack } : Context).enter part nullable = .ok (some child))
      (step : ∀ stack', child = { context with expanding := stack' } →
        Expands context (stack, schema) (stack', part)) :
      ∀ outcome ∈ (mutantsWithin fuel child .empty part).toList, outcome.isCrash = false := by
    obtain ⟨stack', rfl⟩ := Context.expanding_of_enter he
    exact h stack' part (step stack' rfl)
  have scalars (schemas : List Schema) :
      ∀ outcome ∈ (Enumeration.ofList (schemas.map Outcome.pure)).toList,
        outcome.isCrash = false := by
    rw [Enumeration.toList_ofList]
    exact List.forall_mem_map.mpr fun _ _ => rfl
  unfold mutantsWithin
  cases schema with
  | string range sample => exact scalars _
  | number range fractional sample => exact scalars _
  | boolean sample => exact scalars _
  | null => exact List.forall_mem_nil _
  | literal value title => exact scalars _
  | reference name =>
    simp only [Registry.lookup]
    cases found : context.registry.find? name with
    | none => exact List.forall_mem_singleton.mpr rfl
    | some target => exact h stack target (.follow found)
  | object fields title =>
    intro outcome listed
    obtain ⟨maps, hm, rfl⟩ := Enumeration.mem_toList_map.mp listed
    rw [Outcome.isCrash_map]
    refine mutantMaps_isCrash (fun field hf => ?_) (fun field hf => ?_) maps hm
    · exact fieldMutants_isCrash fun child he => entered he fun stack' same =>
        .field (List.mem_of_mem_filter hf) (.inr rfl) (same ▸ he)
    · refine fieldVariants_halts (fun _ bound => (Row.not_bound_empty bound).elim)
        (fun cause _ => cause.halt_ne_endless) fun child he => ?_
      obtain ⟨stack', rfl⟩ := Context.expanding_of_enter he
      exact others stack' field.2
  | list item title sample =>
    simp only [Enumeration.toList_append]
    refine List.forall_mem_append.mpr ⟨scalars _, ?_⟩
    split
    · next child he =>
      intro outcome listed
      obtain ⟨own, ho, rfl⟩ := Enumeration.mem_toList_map.mp listed
      rw [Outcome.isCrash_under, Outcome.isCrash_map]
      exact entered he (fun stack' same => .item (same ▸ he)) own ho
    · exact List.forall_mem_nil _
    · exact List.forall_mem_singleton.mpr rfl
  | union members key title sample =>
    refine unionMutants_isCrash (fun _ => someCovers_isSome _ members) fun schema hm child he => ?_
    exact entered he fun stack' same => .member hm (same ▸ he)

/-- No item for a negative test crashes. -/
theorem mutants_finish (loopFree : context.registry.LoopFree) (mode : context.mode = .synthesize)
    (schema : Schema) :
    ∀ outcome ∈ (schema.mutants context .empty).toList, outcome.isCrash = false :=
  expand_induction (P := fun fuel stack schema =>
      ∀ outcome ∈ (mutantsWithin fuel { context with expanding := stack } .empty schema).toList,
        outcome.isCrash = false)
    loopFree
    (fun _ _ _ h => mutantsWithin_finishes (fun stack' part =>
      @variants_finish { context with expanding := stack' } loopFree mode part) h)
    context.expanding schema (Nat.le_refl _)

/-! ## 4. Whole expansions -/

/-- Over a registry without loops, in synthesis and without a dictionary or a row, a generation
ends, and so does every item for a positive or a negative test: the steps are enough, and more would
change nothing. On the way no frame is ever on the stack twice, hence no name more than twice. -/
theorem expansion_finishes (loopFree : context.registry.LoopFree)
    (mode : context.mode = .synthesize) (empty : context.dictionary = [])
    (fresh : context.expanding.Nodup) (schema : Schema) :
    (∀ fuel, schema.expansionBudget context.registry ≤ fuel →
      generateWithin fuel context schema = schema.generate context ∧
        variantsWithin fuel context .empty schema = schema.variants context .empty ∧
        mutantsWithin fuel context .empty schema = schema.mutants context .empty) ∧
    (∀ rng, ((schema.generate context).runFrom rng).1 ≠ .error .endless) ∧
    (∀ item ∈ (schema.variants context .empty).toList, item ≠ .error .endless) ∧
    (∀ outcome ∈ (schema.mutants context .empty).toList, outcome.isCrash = false) ∧
    ∀ stack part, Relation.ReflTransGen (Expands context) (context.expanding,
      schema) (stack, part) →
      stack.Nodup ∧ ∀ identity, (stack.filter (·.identity = identity)).length ≤ 2 := by
  refine ⟨fun fuel enough => within_eq_of_budget_le loopFree .empty enough, fun rng run => ?_,
    fun item listed same => ?_, mutants_finish loopFree mode schema, fun stack part reached => ?_⟩
  · have finished := generate_finishes loopFree mode empty schema rng
    rw [run] at finished
    exact finished rfl
  · have finished := variants_finish loopFree mode schema item listed
    rw [same] at finished
    exact finished rfl
  · have still := nodup_of_expands reached fresh
    exact ⟨still, count_identity_le still⟩

end Schema

/-- Trees under a second name, whose first alternative is the union itself. -/
def tangledTrees : Registry :=
  (Registry.initial.register "Plant" (.named "Tree")).register "Tree"
    (.union [.named "Plant", .object [("left?", .named "Tree"), ("right?", .named "Plant")] none]
      none none none)

/-- The trees are not guarded, and still every expansion ends. -/
theorem expansion_finishes_tangledTrees :
    ¬tangledTrees.Guarded ∧ tangledTrees.LoopFree ∧
    (∀ rng, (((Schema.named "Plant").generate (.ofRegistry tangledTrees)).runFrom rng).1 ≠
      .error .endless) ∧
    (∀ item ∈ ((Schema.named "Plant").variants (.ofRegistry tangledTrees) .empty).toList,
      item ≠ .error .endless) ∧
    (∀ outcome ∈ ((Schema.named "Plant").mutants (.ofRegistry tangledTrees) .empty).toList,
      outcome.isCrash = false) ∧
    ∀ stack part, Relation.ReflTransGen (Schema.Expands (.ofRegistry tangledTrees))
        ([], Schema.named "Plant") (stack, part) →
      stack.Nodup ∧ ∀ identity, (stack.filter (·.identity = identity)).length ≤ 2 := by
  have loop : tangledTrees.Leads "(Plant)" "(Tree)" ∧ tangledTrees.Leads "(Tree)" "(Plant)" :=
    ⟨⟨.named "Tree", rfl, by decide +kernel⟩, ⟨_, rfl, by decide +kernel⟩⟩
  have loopFree : tangledTrees.LoopFree :=
    Registry.loopFree_of_rank (fun name => if name = "(Plant)" then 1 else 0) (by decide +kernel)
  exact ⟨fun guarded => guarded _ (.tail (.single loop.1) loop.2), loopFree,
    (@Schema.expansion_finishes (.ofRegistry tangledTrees) loopFree rfl rfl List.nodup_nil
      (Schema.named "Plant")).2⟩

end DataContract
