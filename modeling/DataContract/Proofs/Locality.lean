import Mathlib
import DataContract.Proofs.Expansion
import DataContract.Schema.Mutation

/-!
# What a computation looks at

The three computations over schemas are recursions with a count of steps. Each looks at nothing but
the schemas that are expanded next, so two counts that agree on these agree on the schema. The
lemmas follow the definitions, from the parts to the whole.

1. `Context.protect_congr`, `generateFields_congr`: the parts of a generation.
2. `combinationVariants_congr`, `alternativeStream_congr`, `mutantMaps_congr`: the parts of a
   derivation.
3. `Schema.generateWithin_congr`, `Schema.variantsWithin_congr`, `Schema.mutantsWithin_congr`, and
   `Schema.within_eq_of_budget_le`: more steps than the budget change nothing. Of items for positive
   tests that is true in any registry (`Schema.variantsWithin_eq_of_budget_le`), because round a
   loop they are endless in every number of steps.
-/

namespace DataContract

open Gen

/-! ## 1. Parts of a generation -/

/-- Only what is drawn goes on. -/
theorem Gen.bind_draw_congr {α β : Type} {source : Draw α} {next next' : α → Gen β}
    (h : ∀ rng, next (source rng).1 = next' (source rng).1) :
    (draw source >>= next) = (draw source >>= next') := by
  have same (rng : Rng) :
      (draw source >>= next).runFrom rng = (draw source >>= next').runFrom rng := by
    rw [runFrom_bind, runFrom_bind]
    show (next (source rng).1).runFrom _ = (next' (source rng).1).runFrom _
    rw [h]
  exact funext same

theorem Context.protect_congr {α : Type} {context : Context} {schema : Schema} {nullable : Bool}
    {body body' : Context → Gen α}
    (h : ∀ child, context.enter schema nullable = .ok (some child) → body child = body' child) :
    (context.protect schema nullable body : Gen (Option α)) =
        context.protect schema nullable body' := by
  unfold protect
  split
  · rfl
  · rfl
  · next child entered => rw [h child entered]

theorem generateKeyed_congr {make make' : Context → Schema → Gen Value} {context : Context}
    {schema : Schema} (key : Option String) (h : make context schema = make' context schema) :
    generateKeyed make context key schema = generateKeyed make' context key schema := by
  unfold generateKeyed
  rw [h]

theorem generateFields_congr {make make' : Context → Schema → Gen Value} {context : Context}
    {fields : List (String × Schema)} (done : Fields Value)
    (h : ∀ field ∈ fields, ∀ child, context.enter field.2 (Key.isOptional field.1) =
      .ok (some child) → make child field.2 = make' child field.2) :
    generateFields make context fields done = generateFields make' context fields done := by
  induction fields generalizing done with
  | nil => rfl
  | cons field rest ih =>
    obtain ⟨key, schema⟩ := field
    obtain ⟨own, others⟩ := List.forall_mem_cons.mp h
    have part : (context.protect schema (Key.isOptional key) fun child =>
          generateKeyed make child (some (Key.name key)) schema : Gen (Option Value)) =
        context.protect schema (Key.isOptional key) fun child =>
          generateKeyed make' child (some (Key.name key)) schema :=
      Context.protect_congr fun child entered => generateKeyed_congr _ (own child entered)
    have rest : generateFields make context rest = generateFields make' context rest :=
      funext fun done => ih done others
    simp only [generateFields, part, rest]

/-! ## 2. Parts of a derivation -/

namespace Enumeration

variable {α β : Type}

theorem flatMap_ofList_congr {items : List α} {f g : α → Enumeration β}
    (h : ∀ a ∈ items, f a = g a) : (ofList items).flatMap f = (ofList items).flatMap g := by
  induction items with
  | nil => rfl
  | cons a rest ih =>
    obtain ⟨own, others⟩ := List.forall_mem_cons.mp h
    simp only [ofList, flatMap, own, ih others]

end Enumeration

section Derive

variable {context : Context} {row : Row} {entries : Fields Schema} {members : List Schema}

theorem fieldVariants_congr {derive derive' : Context → Schema → Enumeration (Attempt Schema)}
    {key : String} {schema : Schema}
    (h : ∀ child, context.enter schema (Key.isOptional key) = .ok (some child) →
      derive child schema = derive' child schema) :
    fieldVariants derive context row key schema = fieldVariants derive' context row key schema := by
  unfold fieldVariants
  split
  · rfl
  · dsimp only
    split
    · next child entered => rw [h child entered]
    · rfl
    · rfl

theorem combinationVariants_congr
    {positives positives' : String → Schema → Enumeration (Attempt (Option Schema))}
    (h : ∀ entry ∈ entries, positives entry.1 entry.2 = positives' entry.1 entry.2) :
    combinationVariants positives row entries = combinationVariants positives' row entries := by
  unfold combinationVariants fieldsVariants
  dsimp only
  congr 1
  funext keys
  congr 2
  refine List.map_congr_left fun entry he => ?_
  have listed : entry ∈ entries := List.mem_of_mem_filter (List.mem_of_mem_filter he)
  rw [h entry listed]

theorem alternativeStream_congr {α : Type}
    {derive derive' : Context → Schema → Enumeration (Attempt α)}
    (h : ∀ schema ∈ members, ∀ child,
      context.enter schema (Schema.listsNull members) = .ok (some child) →
        derive child schema = derive' child schema) :
    alternativeStream derive context members = alternativeStream derive' context members := by
  refine Enumeration.flatMap_ofList_congr fun schema hm => ?_
  split
  · next child entered => rw [h schema (Schema.mem_of_mem_nullsLast hm) child entered]
  · rfl
  · rfl

theorem fieldMutants_congr {negate negate' : Context → Schema → Enumeration (Outcome Schema)}
    {schema : Schema}
    (h : ∀ child, context.enter schema true = .ok (some child) →
      negate child schema = negate' child schema) :
    fieldMutants .full negate context schema = fieldMutants .full negate' context schema := by
  unfold fieldMutants
  dsimp only
  split
  · next child entered => rw [h child entered]
  · rfl
  · rfl

theorem mutantMaps_congr {mutants mutants' : String → Schema → Enumeration (Outcome Schema)}
    {positives : String → Schema → Enumeration (Attempt (Option Schema))}
    (h : ∀ entry ∈ entries, mutants entry.1 entry.2 = mutants' entry.1 entry.2) :
    mutantMaps mutants positives entries = mutantMaps mutants' positives entries := by
  have marked : markedMaps mutants positives entries = markedMaps mutants' positives entries :=
    Enumeration.flatMap_ofList_congr fun entry he => by rw [h entry.1 (mem_of_mem_zipIdx he)]
  unfold mutantMaps
  rw [marked]

theorem unionMutants_congr {negate negate' : Context → Schema → Enumeration (Outcome Schema)}
    (covers : Schema → Option Bool)
    (h : ∀ schema ∈ members, ∀ child,
      context.enter schema (Schema.listsNull members) = .ok (some child) →
        negate child schema = negate' child schema) :
    unionMutants covers negate context members = unionMutants covers negate' context members := by
  unfold unionMutants
  rw [alternativeStream_congr fun schema hm child entered => by rw [h schema hm child entered]]

end Derive

/-! ## 3. Whole computations -/

namespace Schema

variable {context : Context} {stack : List Frame} {schema : Schema} {fuel fuel' : Nat}

/-- A generation looks at nothing but the schemas that are expanded next. -/
theorem generateWithin_congr
    (h : ∀ stack' part, Expands context (stack, schema) (stack', part) →
      generateWithin fuel { context with expanding := stack' } part =
        generateWithin fuel' { context with expanding := stack' } part) :
    generateWithin (fuel + 1) { context with expanding := stack } schema =
      generateWithin (fuel' + 1) { context with expanding := stack } schema := by
  have entered {part : Schema} {nullable : Bool} {child : Context}
      (he : ({ context with expanding := stack } : Context).enter part nullable = .ok (some child))
      (step : ∀ stack', child = { context with expanding := stack' } →
        Expands context (stack, schema) (stack', part)) :
      generateWithin fuel child part = generateWithin fuel' child part := by
    obtain ⟨stack', rfl⟩ := Context.expanding_of_enter he
    exact h stack' part (step stack' rfl)
  unfold generateWithin
  congr 1
  funext example?
  cases example? with
  | some value => rfl
  | none =>
    cases schema with
    | string | number | boolean | null | literal => rfl
    | reference name =>
      simp only [Registry.lookup]
      cases found : context.registry.find? name with
      | none => rfl
      | some target =>
        show generateWithin fuel _ target = generateWithin fuel' _ target
        exact h stack target (.follow found)
    | object fields title =>
      dsimp only
      rw [generateFields_congr [] fun field hf child he =>
        entered he fun stack' same => .field hf (.inl rfl) (same ▸ he)]
    | list item title sample =>
      dsimp only
      rw [Context.protect_congr fun child he => entered he fun stack' same => .item (same ▸ he)]
    | union members key title sample =>
      dsimp only
      refine bind_draw_congr fun rng => ?_
      cases chosen : (Draw.choose members rng).1 with
      | none => rfl
      | some pick =>
        dsimp only
        rw [Context.protect_congr fun child he => generateKeyed_congr key
          (entered he fun stack' same => .member (Draw.choose_mem chosen) (same ▸ he))]

/-- An item for a positive test looks at nothing but the schemas that are expanded next. -/
theorem variantsWithin_congr {row : Row}
    (h : ∀ stack' part, Expands context (stack, schema) (stack', part) →
      variantsWithin fuel { context with expanding := stack' } row part =
        variantsWithin fuel' { context with expanding := stack' } row part) :
    variantsWithin (fuel + 1) { context with expanding := stack } row schema =
      variantsWithin (fuel' + 1) { context with expanding := stack } row schema := by
  have entered {part : Schema} {nullable : Bool} {child : Context}
      (he : ({ context with expanding := stack } : Context).enter part nullable = .ok (some child))
      (step : ∀ stack', child = { context with expanding := stack' } →
        Expands context (stack, schema) (stack', part)) :
      variantsWithin fuel child row part = variantsWithin fuel' child row part := by
    obtain ⟨stack', rfl⟩ := Context.expanding_of_enter he
    exact h stack' part (step stack' rfl)
  unfold variantsWithin
  cases schema with
  | string | number | boolean | null | literal => rfl
  | reference name =>
    simp only [Registry.lookup]
    cases found : context.registry.find? name with
    | none => rfl
    | some target => exact h stack target (.follow found)
  | object fields title =>
    dsimp only
    rw [combinationVariants_congr fun field hf => fieldVariants_congr fun child he =>
      entered he fun stack' same => .field hf (.inl rfl) (same ▸ he)]
  | list item title sample =>
    dsimp only
    split
    · rfl
    · split
      · next child he => rw [entered he fun stack' same => .item (same ▸ he)]
      · rfl
      · rfl
  | union members key title sample =>
    dsimp only
    split
    · rfl
    · rfl
    · unfold unionStream
      rw [alternativeStream_congr fun schema hm child he =>
        entered he fun stack' same => .member hm (same ▸ he)]

/-- An item for a negative test looks at nothing but the schemas that are expanded next, and at
items for positive tests. -/
theorem mutantsWithin_congr {row : Row}
    (h : ∀ stack' part, Expands context (stack, schema) (stack', part) →
      mutantsWithin fuel { context with expanding := stack' } row part =
        mutantsWithin fuel' { context with expanding := stack' } row part) :
    mutantsWithin (fuel + 1) { context with expanding := stack } row schema =
      mutantsWithin (fuel' + 1) { context with expanding := stack } row schema := by
  have entered {part : Schema} {nullable : Bool} {child : Context}
      (he : ({ context with expanding := stack } : Context).enter part nullable = .ok (some child))
      (step : ∀ stack', child = { context with expanding := stack' } →
        Expands context (stack, schema) (stack', part)) :
      mutantsWithin fuel child row part = mutantsWithin fuel' child row part := by
    obtain ⟨stack', rfl⟩ := Context.expanding_of_enter he
    exact h stack' part (step stack' rfl)
  unfold mutantsWithin
  cases schema with
  | string | number | boolean | null | literal => rfl
  | reference name =>
    simp only [Registry.lookup]
    cases found : context.registry.find? name with
    | none => rfl
    | some target => exact h stack target (.follow found)
  | object fields title =>
    refine congrArg (Enumeration.map _) (mutantMaps_congr fun field hf => ?_)
    exact fieldMutants_congr fun child he =>
      entered he fun stack' same => .field (List.mem_of_mem_filter hf) (.inr rfl) (same ▸ he)
  | list item title sample =>
    dsimp only
    split
    · next child he => rw [entered he fun stack' same => .item (same ▸ he)]
    · rfl
    · rfl
  | union members key title sample =>
    exact unionMutants_congr _ fun schema hm child he =>
      entered he fun stack' same => .member hm (same ▸ he)

/-- The only item for a name on a loop is endless, in any number of steps. -/
theorem variantsWithin_of_onLoop {row : Row} {name : String}
    (loop : context.registry.OnLoop (Token.ofName name)) :
    variantsWithin fuel context row (.reference name) = .single (.error .endless) := by
  induction fuel generalizing name with
  | zero => rfl
  | succ fuel ih =>
    obtain ⟨other, found, again⟩ := loop.next
    have looked : context.registry.lookup name = .ok (.reference other) := by
      rw [Registry.lookup, Registry.find?, found]
    simp only [variantsWithin, looked]
    exact ih again

/-- More steps than the budget change nothing in the items for positive tests. -/
theorem variantsWithin_eq_of_budget_le (row : Row)
    (enough : schema.expansionBudget context.registry ≤ fuel) :
    variantsWithin fuel context row schema = schema.variants context row := by
  obtain ⟨more, rfl⟩ := Nat.exists_eq_add_of_le enough
  refine expand_induction_of_onLoop (P := fun fuel stack schema =>
    variantsWithin (fuel + more) { context with expanding := stack } row schema =
      variantsWithin fuel { context with expanding := stack } row schema)
    (fun fuel stack name loop => ?_) (fun fuel stack schema h => ?_)
    context.expanding schema (Nat.le_refl _)
  · have endless (fuel : Nat) : variantsWithin fuel { context with expanding := stack } row
        (.reference name) = .single (.error .endless) := variantsWithin_of_onLoop loop
    rw [endless, endless]
  · rw [Nat.add_right_comm]
    exact variantsWithin_congr h

/-- More steps than the budget change nothing. -/
theorem within_eq_of_budget_le (loopFree : context.registry.LoopFree) (row : Row)
    (enough : schema.expansionBudget context.registry ≤ fuel) :
    generateWithin fuel context schema = schema.generate context ∧
      variantsWithin fuel context row schema = schema.variants context row ∧
      mutantsWithin fuel context row schema = schema.mutants context row := by
  suffices both : generateWithin fuel context schema = schema.generate context ∧
      mutantsWithin fuel context row schema = schema.mutants context row from
    ⟨both.1, variantsWithin_eq_of_budget_le row enough, both.2⟩
  obtain ⟨more, rfl⟩ := Nat.exists_eq_add_of_le enough
  refine expand_induction (P := fun fuel stack schema =>
    generateWithin (fuel + more) { context with expanding := stack } schema =
        generateWithin fuel { context with expanding := stack } schema ∧
      mutantsWithin (fuel + more) { context with expanding := stack } row schema =
        mutantsWithin fuel { context with expanding := stack } row schema)
    loopFree (fun fuel stack schema h => ?_) context.expanding schema (Nat.le_refl _)
  rw [Nat.add_right_comm]
  exact ⟨generateWithin_congr fun stack' part step => (h stack' part step).1,
    mutantsWithin_congr fun stack' part step => (h stack' part step).2⟩

end Schema
end DataContract
