import Mathlib
import DataContract.Proofs.OneField
import DataContract.Proofs.Rejection

/-!
# Negative tests that are none

Data for a negative test are meant to be rejected. A mutation that leaves no trace in the data
spares them: a list comes out empty and so has no wrong item, or an object none of whose fields has
a mutant is stood for by the empty map, which it accepts when it requires nothing. That is all that
can happen.

1. `Schema.Surrounds`: around the mutated field of a map stand variants of the other fields.
2. `Schema.Spared`: what is made of a mutant does not show the mutation.
3. `Schema.Spared.accepts`: then it fits.
4. `Schema.spared_of_accepts`: and nothing else of it does.
5. `Schema.accepts_mutant_iff`: both for the data that are generated. There is a negative test that
   the schema accepts.
-/

namespace DataContract
namespace Schema

/-! ## 1. Around a mutated field -/

/-- A map in which one field, known by its name, has the part given. The other entries are variants
of fields, and no required field is missing. -/
structure Surrounds (context : Context) (fields made : Fields Schema) (name : String)
    (part : Schema) : Prop where
  distinct : (Fields.names made).Nodup
  here : (name, part) ∈ made
  others : ∀ entry ∈ made, entry.1 ≠ name →
    ∃ field ∈ fields, Key.name field.1 = entry.1 ∧ Derives context field.2 entry.2
  required : ∀ field ∈ fields, Key.isOptional field.1 = false → Key.name field.1 ∈ Fields.names made

variable {context : Context}

/-- A map for a negative test has a mutant of one field, and variants around it. -/
theorem surrounds_of_mapOf {mutants : String → Schema → Enumeration (Outcome Schema)}
    {positives : String → Schema → Enumeration (Attempt (Option Schema))}
    {entries made : Fields Schema}
    {parts : List Part} {outcome : Outcome (Fields Schema)}
    (distinct : ((Fields.names entries).map Key.name).Nodup)
    (derived : ∀ field ∈ entries, ∀ part, .ok part ∈ (positives field.1 field.2).toList →
      PartMade (Derives context) field part)
    (listed : parts ∈ mapParts mutants positives entries) (map : MapOf parts outcome)
    (valued : outcome.value? = some made) :
    ∃ field ∈ entries, ∃ candidate ∈ (mutants field.1 field.2).toList, ∃ part,
      candidate.value? = some part ∧ Surrounds context entries made (Key.name field.1) part := by
  obtain ⟨values, named, entry_iff⟩ := map.fields valued
  rw [names_of_mem_mapParts listed] at named
  obtain ⟨field, hf, candidate, hc, own, each, all⟩ := around_of_mem_mapParts listed
  have variant {source : String × Schema} (hs : source ∈ entries) {part : Part}
      (listed : part ∈ variantParts positives source) {content : Option Schema}
      (hv : part.2.value? = some content) :
      part.1 = Key.name source.1 ∧ PartMade (Derives context) source content := by
    obtain ⟨choice, hch, rfl⟩ := List.mem_map.mp listed
    rw [Outcome.value?_ofAttempt hv] at hch
    exact ⟨rfl, derived source hs content hch⟩
  obtain ⟨content, hv⟩ := values _ own
  have hp := hv
  rw [mutantPart, Outcome.value?_map] at hp
  obtain ⟨part, hpart, rfl⟩ := Option.map_eq_some_iff.mp hp
  have here : (Key.name field.1, part) ∈ made := (entry_iff _ _).mpr ⟨_, own, rfl, hv⟩
  refine ⟨field, hf, candidate, hc, part, hpart, named.nodup distinct, here,
    fun entry hm away => ?_, fun source hs required => ?_⟩
  · obtain ⟨other, ho, same, hv⟩ := (entry_iff entry.1 entry.2).mp hm
    obtain rfl | ⟨source, hs, listed⟩ := each other ho
    · exact absurd same.symm away
    · obtain ⟨name, fits⟩ := variant hs listed hv
      exact ⟨source, hs, name.symm.trans same, fits⟩
  · obtain rfl | ⟨other, ho, listed⟩ := all source hs
    · exact List.mem_map_of_mem here
    · obtain ⟨content, hv⟩ := values other ho
      obtain ⟨name, fits⟩ := variant hs listed hv
      cases content with
      | none => exact Bool.noConfusion (required.symm.trans fits)
      | some schema =>
        have there := (entry_iff _ schema).mpr ⟨other, ho, name, hv⟩
        exact List.mem_map_of_mem (f := (·.1)) there

/-- Every map for a negative test is such a map, but for the lone empty one. -/
theorem surrounds_of_mem_mutantMaps {mutants : String → Schema → Enumeration (Outcome Schema)}
    {stack : List Frame} {fields made : Fields Schema} {outcome : Outcome (Fields Schema)}
    (distinct : ((Fields.names fields).map Key.name).Nodup)
    (listed : outcome ∈ (DataContract.mutantMaps mutants
      (fieldVariants { context with expanding := stack } .empty) fields).toList)
    (valued : outcome.value? = some made) :
    made = [] ∨ ∃ field ∈ fields, ∃ candidate ∈ (mutants field.1 field.2).toList, ∃ part,
      candidate.value? = some part ∧ Surrounds context fields made (Key.name field.1) part := by
  rw [toList_mutantMaps_parts, List.mem_append] at listed
  rcases listed with listed | listed
  · obtain ⟨parts, hp, rfl⟩ := List.mem_map.mp listed
    have map := mapOf_of_mem_mapParts distinct hp
    refine .inr (surrounds_of_mapOf distinct (fun field _ part hv => ?_) hp map valued)
    exact fieldVariants_part .empty (fun stack candidate hc => derives_of_mem_variants .empty hc) hv
  · split at listed
    · cases listed
    · rw [List.mem_singleton] at listed
      subst listed
      cases valued
      exact .inl rfl

/-! ## 2. Spared data -/

/-- Data made of a mutant that do not show the mutation. -/
inductive Spared (context : Context) : Schema → Schema → Value → Prop
  /-- The lone empty map, where no field is required. -/
  | idle {fields : List (String × Schema)} {title : Option String} :
      (∀ field ∈ fields, Key.isOptional field.1 = true) →
      Spared context (.object fields title) (.object [] title) (.object [])
  | reference {name : String} {target mutant : Schema} {value : Value} :
      context.registry.find? name = some target → Spared context target mutant value →
      Spared context (.reference name) mutant value
  /-- No item shows it; there may be no item at all. -/
  | list {item mutant : Schema} {title sample : Option String} {items : List Value} :
      (∀ value ∈ items, Spared context item mutant value) →
      Spared context (.list item title sample) (.list mutant title none) (.array items)
  | object {fields made : Fields Schema} {title : Option String} {entries : Fields Value}
      {field : String × Schema} {part : Schema} {value : Value} :
      field ∈ fields → Surrounds context fields made (Key.name field.1) part →
      Fields.find? (Key.name field.1) entries = some value → Spared context field.2 part value →
      Spared context (.object fields title) (.object made title) (.object entries)

/-! ## 3. Spared data fit -/

section Around

variable {fields made : Fields Schema} {title : Option String} {entries : Fields Value}
  {field : String × Schema} {part : Schema}

namespace Surrounds

/-- Every key of the map is the name of a field, so it has no mark left. -/
theorem key_eq (around : Surrounds context fields made (Key.name field.1) part)
    (hf : field ∈ fields)
    (plain : (object fields title).Plain) {entry : String × Schema} (hm : entry ∈ made) :
    (∃ source ∈ fields, Key.name source.1 = entry.1) ∧ Key.isOptional entry.1 = false ∧
      Key.name entry.1 = entry.1 := by
  have source : ∃ source ∈ fields, Key.name source.1 = entry.1 := by
    by_cases same : entry.1 = Key.name field.1
    · exact ⟨field, hf, same.symm⟩
    · obtain ⟨source, hs, name, _⟩ := around.others entry hm same
      exact ⟨source, hs, name⟩
  have unmarked : Key.isOptional entry.1 = false := by
    obtain ⟨other, ho, name⟩ := source
    rw [← name]
    exact plain.2 other.1 (List.mem_map_of_mem ho)
  exact ⟨source, unmarked, Key.name_of_required unmarked⟩

/-- What stands in the data under a key of the map was made for it. -/
theorem makes_entry (around : Surrounds context fields made (Key.name field.1) part)
    (hf : field ∈ fields) (plain : (object fields title).Plain) (empty : context.dictionary = [])
    (makes : Makes context (.object made title) (.object entries)) :
    (∀ entry ∈ made, entry.1 ∈ Fields.names entries) ∧
      ∀ name value, Fields.find? name entries = some value →
        ∃ entry ∈ made, entry.1 = name ∧ Makes context entry.2 value := by
  cases makes with
  | taken source _ => exact (not_taken rfl empty source).elim
  | object origin source make required =>
    refine ⟨fun entry hm => ?_, fun name value hv => ?_⟩
    · obtain ⟨_, unmarked, same⟩ := around.key_eq hf plain hm
      have there := required entry hm unmarked
      rwa [same] at there
    · obtain ⟨hm, name_eq⟩ := source name (Fields.mem_names_of_find? hv)
      obtain ⟨_, _, same⟩ := around.key_eq hf plain hm
      exact ⟨_, hm, same.symm.trans name_eq, make name value hv⟩

/-- The data have a value for the mutated field, and it was made of the mutant. -/
theorem exists_here (around : Surrounds context fields made (Key.name field.1) part)
    (hf : field ∈ fields) (plain : (object fields title).Plain) (empty : context.dictionary = [])
    (makes : Makes context (.object made title) (.object entries)) :
    ∃ value, Fields.find? (Key.name field.1) entries = some value ∧ Makes context part value := by
  obtain ⟨present, make⟩ := around.makes_entry hf plain empty makes
  obtain ⟨value, hv⟩ := Fields.exists_find?_of_mem_names (present _ around.here)
  obtain ⟨entry, hm, name, makes⟩ := make _ value hv
  have same : entry = (Key.name field.1, part) :=
    List.inj_on_of_nodup_map around.distinct hm around.here name
  rw [same] at makes
  exact ⟨value, hv, makes⟩

/-- What is made of the map fits, if the value of the mutated field does. -/
theorem accepts (around : Surrounds context fields made (Key.name field.1) part)
    (hf : field ∈ fields) (plain : (object fields title).Everywhere Plain)
    (registered : context.registry.Everywhere Plain) (empty : context.dictionary = [])
    (makes : Makes context (.object made title) (.object entries))
    (fits : ∀ value, Fields.find? (Key.name field.1) entries = some value →
      Accepts context.registry context.keyPolicy field.2 value) :
    Accepts context.registry context.keyPolicy (.object fields title) (.object entries) := by
  obtain ⟨present, make⟩ := around.makes_entry hf plain.here empty makes
  obtain ⟨⟨distinct, _⟩, below⟩ := everywhere_object.mp plain
  refine .object ⟨fun _ key hk required => ?_, fun _ name hn => ?_⟩ fun other ho value hv => ?_
  · obtain ⟨source, hs, rfl⟩ := List.mem_map.mp hk
    obtain ⟨entry, hm, name⟩ := List.mem_map.mp (around.required source hs required)
    have there := present entry hm
    rwa [name, Key.name_of_required required] at there
  · obtain ⟨value, hv⟩ := Fields.exists_find?_of_mem_names hn
    obtain ⟨entry, hm, rfl, _⟩ := make name value hv
    obtain ⟨⟨source, hs, name⟩, _⟩ := around.key_eq hf plain.here hm
    exact ⟨source.1, List.mem_map_of_mem hs, name⟩
  · by_cases same : Key.name other.1 = Key.name field.1
    · obtain rfl := field_eq_of_name distinct ho hf same
      exact fits value hv
    · obtain ⟨entry, hm, name, makes⟩ := make _ value hv
      obtain ⟨source, hs, origin, derived⟩ := around.others entry hm (name ▸ same)
      obtain rfl := field_eq_of_name distinct hs ho (origin.trans name)
      exact derived.accepts_of_makes empty registered (below source hs) makes

end Surrounds

end Around

/-- Data that do not show the mutation fit the schema. -/
theorem Spared.accepts (empty : context.dictionary = [])
    (registered : context.registry.Everywhere Plain) {schema mutant : Schema} {value : Value}
    (spared : Spared context schema mutant value) (plain : schema.Everywhere Plain)
    (makes : Makes context mutant value) :
    Accepts context.registry context.keyPolicy schema value := by
  induction spared with
  | idle optional =>
    refine .object ⟨fun _ key hk required => ?_, fun _ => nofun⟩ fun _ _ _ => nofun
    obtain ⟨field, hf, rfl⟩ := List.mem_map.mp hk
    exact Bool.noConfusion (required.symm.trans (optional field hf))
  | reference found _ ih => exact .reference found (ih (registered.target found) makes)
  | list _ ih =>
    obtain ⟨_, below⟩ := everywhere_list.mp plain
    cases makes with
    | list make => exact .list fun value hv => ih value hv below (make value hv)
    | taken source _ => exact (not_taken rfl empty source).elim
  | @object fields made title entries field part value hf around found _ ih =>
    refine around.accepts hf plain registered empty makes fun other ho => ?_
    obtain ⟨own, hv, make⟩ := around.exists_here hf plain.here empty makes
    rw [found, Option.some.injEq] at ho hv
    subst ho hv
    exact ih ((everywhere_object.mp plain).2 field hf) make

/-! ## 4. Nothing else fits -/

/-- Data made of a listed mutant fit only where they do not show the mutation. The induction is on
the steps; a node that is no container refuses all data of its mutants, and null is put last only
where it does not fit. -/
theorem spared_of_accepts (guarded : context.registry.Guarded)
    (strict : context.keyPolicy = .strict)
    (empty : context.dictionary = []) (registered : context.registry.Everywhere Simple) {fuel : Nat}
    {stack : List Frame} {schema mutant : Schema} {outcome : Outcome Schema} {value : Value}
    (simple : schema.Everywhere Simple)
    (listed : outcome ∈
      (mutantsWithin fuel { context with expanding := stack } .empty schema).toList)
    (valued : outcome.value? = some mutant) (makes : Makes context mutant value)
    (fits : Accepts context.registry context.keyPolicy schema value) :
    Spared context schema mutant value := by
  induction fuel generalizing stack schema outcome mutant value with
  | zero =>
    unfold mutantsWithin at listed
    rw [Enumeration.mem_toList_single] at listed
    subst listed
    cases valued
  | succ fuel ih =>
    have scalar {schemas : List Schema}
        (listed : outcome ∈ (Enumeration.ofList (schemas.map Outcome.pure)).toList) :
        mutant ∈ schemas := by
      rw [Enumeration.toList_ofList, List.mem_map] at listed
      obtain ⟨schema, hm, rfl⟩ := listed
      cases valued
      exact hm
    unfold mutantsWithin at listed
    cases schema with
    | string range sample => exact absurd fits (string_refuses empty (scalar listed) makes)
    | number range fractional sample =>
      exact absurd fits (number_refuses empty simple.here (scalar listed) makes)
    | boolean sample => exact absurd fits (boolean_refuses empty (scalar listed) makes)
    | null => cases listed
    | literal expected title => exact absurd fits (literal_refuses empty (scalar listed) makes)
    | reference name =>
      simp only [Registry.lookup] at listed
      cases found : context.registry.find? name with
      | none =>
        simp only [found, Enumeration.mem_toList_single] at listed
        subst listed
        cases valued
      | some target =>
        simp only [found] at listed
        cases fits with
        | reference same fits =>
          rw [found, Option.some.injEq] at same
          subst same
          exact .reference found (ih (registered.target found) listed valued makes fits)
    | object fields title =>
      obtain ⟨⟨distinct, _⟩, below⟩ := everywhere_object.mp simple
      have plain : (object fields title).Plain := simple.here.plain
      rw [Enumeration.mem_toList_map] at listed
      obtain ⟨map, hm, rfl⟩ := listed
      rw [Outcome.value?_map, Option.map_eq_some_iff] at valued
      obtain ⟨made, hv, rfl⟩ := valued
      simp only [Row.Plain.empty.kept] at hm
      cases fits with
      | @object _ _ entries allowed fits =>
        rcases surrounds_of_mem_mutantMaps distinct hm hv with
          rfl | ⟨field, hf, candidate, hc, part, hp, around⟩
        · cases makes.bare_inv empty
          refine .idle fun field hf => ?_
          by_contra marked
          have required : Key.isOptional field.1 = false := Bool.eq_false_iff.mpr marked
          cases allowed.present (by rw [strict]; rfl) field.1 (List.mem_map_of_mem hf) required
        · obtain ⟨value, found, make⟩ := around.exists_here hf plain empty makes
          have fit := fits field hf value found
          rcases mem_fieldMutants hc with ⟨stack, listed⟩ | ⟨rfl, forbidden⟩
          · exact .object hf around found (ih (below field hf) listed hp make fit)
          · cases hp
            obtain rfl := make.null_inv empty
            have nullable := isNullable_of_accepts guarded registered (below field hf) fit
            exact Bool.noConfusion (forbidden.symm.trans nullable)
    | list item title sample =>
      obtain ⟨_, below⟩ := everywhere_list.mp simple
      rw [Enumeration.toList_append, List.mem_append] at listed
      rcases listed with listed | listed
      · exact absurd fits (list_refuses empty (scalar listed) makes)
      · split at listed
        · next child he =>
          obtain ⟨stack, rfl⟩ := Context.expanding_of_enter he
          rw [Enumeration.mem_toList_map] at listed
          obtain ⟨own, ho, rfl⟩ := listed
          rw [Outcome.value?_under, Outcome.value?_map, Option.map_eq_some_iff] at valued
          obtain ⟨part, hp, rfl⟩ := valued
          cases makes with
          | taken source _ => exact (not_taken rfl empty source).elim
          | list make =>
            cases fits with
            | list fits =>
              exact .list fun value hv => ih below ho hp (make value hv) (fits value hv)
        · cases listed
        · rw [Enumeration.mem_toList_single] at listed
          subst listed
          cases valued
    | union members key title sample => exact simple.here.elim

/-! ## 5. Negative tests -/

/-- Over a guarded registry of simple schemas and without a dictionary, data of a negative test are
accepted exactly when they do not show the mutation, whatever numbers are drawn. -/
theorem accepts_mutant_iff {schema candidate : Schema} {rng : Rng} {value : Value}
    (guarded : context.registry.Guarded) (strict : context.keyPolicy = .strict)
    (empty : context.dictionary = []) (simple : schema.Everywhere Simple)
    (registered : context.registry.Everywhere Simple)
    (listed : ∃ outcome ∈ (schema.mutants context .empty).toList, outcome.value? = some candidate)
    (made : ((candidate.generate context).runFrom rng).1 = .ok value) :
    schema.accepts context value = some true ↔ Spared context schema candidate value := by
  have makes := makes_of_generate made
  obtain ⟨outcome, listed, valued⟩ := listed
  unfold mutants at listed
  rw [accepts_iff guarded]
  constructor
  · exact spared_of_accepts guarded strict empty registered simple listed valued makes
  · intro spared
    have plain : context.registry.Everywhere Plain := fun entry hm =>
      (registered entry hm).mono fun _ => Simple.plain
    exact spared.accepts empty plain (simple.mono fun _ => Simple.plain) makes

end Schema

/-- Trees with a left and a right tree, each of which may be missing. -/
def trees : Registry :=
  Registry.initial.register "Tree"
    (.object [("left?", .named "Tree"), ("right?", .named "Tree")] (some "Tree"))

/-- A field with a tree. -/
def plantedTree : Schema := .object [("root", .named "Tree")] none

/-- A field with an object without fields. -/
def plantedNothing : Schema := .object [("root", .object [] (some "Tree"))] none

theorem mem_mutants_plantedTree :
    ∃ outcome ∈ (plantedTree.mutants (.ofRegistry trees) .empty).toList,
      outcome.value? = some plantedNothing := by
  have first : (plantedTree.mutants (.ofRegistry trees) .empty).toList.head?.bind
      (fun outcome => outcome.value?) = some plantedNothing := rfl
  obtain ⟨outcome, head, valued⟩ := Option.bind_eq_some_iff.mp first
  exact ⟨outcome, List.mem_of_head? head, valued⟩

/-- Data made for a negative test of a tree under a field do not show the mutation. -/
theorem spared_plantedNothing :
    Schema.Spared (.ofRegistry trees) plantedTree plantedNothing
      (.object [("root", .object [])]) := by
  have made : ((plantedNothing.generate (.ofRegistry trees)).runFrom (.ofSeed 0)).1 =
      .ok (.object [("root", .object [])]) := rfl
  refine (Schema.accepts_mutant_iff
    (Registry.guarded_of_rank (fun _ => 0) (by decide +kernel)) rfl rfl
    (by decide +kernel) (by decide +kernel) mem_mutants_plantedTree made).mp ?_
  decide +kernel

/-- No field of a tree has a mutant, so that the empty tree stands for its mutants: data of this
negative test are accepted. The test is not the empty map of the schema itself. -/
theorem accepts_plantedNothing :
    trees.Guarded ∧ trees.Everywhere Schema.Simple ∧ plantedTree.Everywhere Schema.Simple ∧
      (∃ outcome ∈ (plantedTree.mutants (.ofRegistry trees) .empty).toList,
        outcome.value? = some plantedNothing) ∧
      ((plantedNothing.generate (.ofRegistry trees)).runFrom (.ofSeed 0)).1 =
        .ok (.object [("root", .object [])]) ∧
      plantedTree.accepts (.ofRegistry trees) (.object [("root", .object [])]) = some true :=
  ⟨Registry.guarded_of_rank (fun _ => 0) (by decide +kernel), by decide +kernel, by decide +kernel,
    mem_mutants_plantedTree, rfl, by decide +kernel⟩

end DataContract
