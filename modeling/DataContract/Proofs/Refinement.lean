import Mathlib
import DataContract.Proofs.Derives

/-!
# Positive tests are positive

A candidate that is derived from a schema is more specific: what is made of the candidate fits the
schema that it comes from.

1. `Schema.Plain`: what the author of a schema is asked for, well-posed nodes and keys of which none
   ends in two marks. A derived key loses one mark, so it is required then.
2. `Schema.Derives.accepts_of_makes`: what can be made of a candidate fits the schema. References,
   unions, combinations of keys and literals in the place of values each narrow what is accepted.
3. Positive tests: hence a value that is generated for one is accepted.
-/

namespace DataContract
namespace Schema

/-! ## 1. Plain schemas -/

/-- A well-posed node; no key of an object ends in two marks. -/
def Plain (schema : Schema) : Prop :=
  schema.WellPosed ∧
    match schema with
    | object fields _ => ∀ key ∈ Fields.names fields, Key.isOptional (Key.name key) = false
    | _ => True

instance : DecidablePred Plain := fun schema => by
  unfold Plain
  cases schema <;> exact instDecidableAnd

/-! ## 2. Candidates narrow -/

/-- Without an example and without a dictionary nothing is taken over. -/
theorem not_taken {context : Context} {schema : Schema} (unsampled : schema.sample? = none)
    (empty : context.dictionary = []) :
    ¬ (schema.sample?.isSome = true ∨ context.dictionary ≠ []) := by
  rintro (sampled | filled)
  · rw [unsampled] at sampled
    cases sampled
  · exact filled empty

/-- What can be made of a candidate fits the schema that it is derived from. -/
theorem Derives.accepts_of_makes {context : Context} (empty : context.dictionary = [])
    (registered : context.registry.Everywhere Plain) {schema candidate : Schema} {value : Value}
    (derived : Derives context schema candidate) (plain : schema.Everywhere Plain)
    (made : Makes context candidate value) :
    Accepts context.registry context.keyPolicy schema value := by
  induction derived generalizing value with
  | same _ =>
    exact made.accepts (fun entry he => (registered entry he).mono fun _ => And.left)
      (plain.mono fun _ => And.left)
  | taken fit =>
    cases made with
    | literal => exact fit
    | taken source _ => exact (not_taken rfl empty source).elim
  | reference found _ ih => exact .reference found (ih (registered.target found) made)
  | @object fields parts title origin source _ required ih =>
    obtain ⟨⟨distinct, unmarked⟩, below⟩ := everywhere_object.mp plain
    cases made with
    | taken taken _ => exact (not_taken rfl empty taken).elim
    | object origin' source' make required' =>
      have key_required {entry : String × Schema} (hm : entry ∈ parts) :
          Key.isOptional entry.1 = false := by
        obtain ⟨hf, hn⟩ := source entry hm
        rw [← hn]
        exact unmarked _ (List.mem_map_of_mem hf)
      have name_eq {entry : String × Schema} (hm : entry ∈ parts) : Key.name entry.1 = entry.1 :=
        Key.name_of_required (key_required hm)
      refine .object ⟨fun _ key hk ho => ?_, fun _ name hn => ?_⟩ fun field hf value hv => ?_
      · obtain ⟨field, hf, rfl⟩ := List.mem_map.mp hk
        have present := required field hf ho
        obtain ⟨entry, hm, he⟩ := List.mem_map.mp present
        have there := required' entry hm (key_required hm)
        rw [name_eq hm, he, Key.name_of_required ho] at there
        exact there
      · obtain ⟨hm, he⟩ := source' name hn
        rw [name_eq hm] at he
        obtain ⟨hf, ho⟩ := source _ hm
        exact ⟨_, List.mem_map_of_mem hf, ho.trans he⟩
      · obtain ⟨hm, he⟩ := source' _ (Fields.mem_names_of_find? hv)
        rw [name_eq hm] at he
        obtain ⟨ho, hn⟩ := source _ hm
        have fit := ih _ hm (below _ ho) (make _ value hv)
        rwa [field_eq_of_name distinct ho hf (hn.trans he)] at fit
  | list _ ih =>
    obtain ⟨_, below⟩ := everywhere_list.mp plain
    cases made with
    | list make => exact .list fun value hv => ih below (make value hv)
    | taken source _ => exact (not_taken rfl empty source).elim
  | emptyList =>
    cases made with
    | literal => exact .list nofun
    | taken source _ => exact (not_taken rfl empty source).elim
  | union hm _ ih => exact .union hm (ih ((everywhere_union.mp plain).2 _ hm) made)

/-! ## 3. Positive tests -/

/-- Over a guarded registry of plain schemas and without a dictionary, a value that is generated for
a candidate is accepted by the schema that the candidate was listed for, whatever numbers are drawn.
The row leaves out nothing and binds no tokens. -/
theorem accepts_of_variant {context : Context} {row : Row} {schema candidate : Schema} {rng : Rng}
    {value : Value} (guarded : context.registry.Guarded) (empty : context.dictionary = [])
    (bound : row.Plain) (plain : schema.Everywhere Plain)
    (registered : context.registry.Everywhere Plain)
    (listed : .ok candidate ∈ (schema.variants context row).toList)
    (made : ((candidate.generate context).runFrom rng).1 = .ok value) :
    schema.accepts context value = some true :=
  (accepts_iff guarded).mpr
    ((derives_of_mem_variants bound listed).accepts_of_makes empty registered plain
      (makes_of_generate made))

end Schema

/-- A candidate for a node whose number the row binds gives a value that the node accepts, drawn
from the seed 7. -/
theorem accepts_of_variant_node :
    ∃ candidate value, .ok candidate ∈
      ((Schema.named "Node").variants (.ofRegistry linkedNodes)
        (Row.empty.bind "value" "3")).toList ∧
      ((candidate.generate (.ofRegistry linkedNodes)).runFrom (.ofSeed 7)).1 = .ok value ∧
      (Schema.named "Node").accepts (.ofRegistry linkedNodes) value = some true := by
  have some : (((Schema.named "Node").variants (.ofRegistry linkedNodes)
      (Row.empty.bind "value" "3")).toList.any fun attempt => match attempt with
        | .ok candidate => ((candidate.generate (.ofRegistry linkedNodes)).runFrom
            (.ofSeed 7)).1.isOk
        | .error _ => false) = true := by decide +kernel
  obtain ⟨attempt, listed, made⟩ := List.any_eq_true.mp some
  cases attempt with
  | error halt => cases made
  | ok candidate =>
    cases run : ((candidate.generate (.ofRegistry linkedNodes)).runFrom (.ofSeed 7)).1 with
    | error halt =>
      simp only [run] at made
      cases made
    | ok value =>
      exact ⟨candidate, value, listed, run, Schema.accepts_of_variant guarded_linkedNodes rfl
        ⟨rfl, by decide +kernel⟩ (by decide +kernel) (by decide +kernel) listed run⟩

end DataContract
