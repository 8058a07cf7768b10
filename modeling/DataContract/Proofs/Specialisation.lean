import Mathlib
import DataContract.Proofs.Reflexivity
import DataContract.Proofs.Refinement

/-!
# Positive tests are specialisations

A candidate for a positive test is covered by the schema that it is listed for. The derivation of
the candidate says where each part of it comes from, and the comparison goes the same way: along the
reference that was followed, to the alternative that was expanded, and from every field of the
candidate to the field that it was made for. What the row or an example puts in place of a part is
checked as a value.

It is false that this needs the names under comparison to be told apart. A pair of names that comes
up again only spares the rest of the comparison, and no candidate is refused for it.

1. `Schema.Tidy`: what is asked of every node.
2. `Schema.covered_of_alternative`: what is neither a reference nor a union is covered through one
   alternative.
3. `Schema.Derives.covered`: a derivation gives a comparison that accepts, from any stack.
4. `Schema.covers_of_variant`: hence every candidate is covered.
-/

namespace DataContract
namespace Schema

/-! ## 1. Nodes -/

/-- No key of an object ends in two marks. A derived key loses one mark, so it is required then. -/
def SinglyMarked : Schema → Prop
  | object fields _ => ∀ key ∈ Fields.names fields, Key.isOptional (Key.name key) = false
  | _ => True

instance : DecidablePred SinglyMarked
  | .object fields _ =>
    inferInstanceAs (Decidable (∀ key ∈ Fields.names fields, Key.isOptional (Key.name key) = false))
  | .string _ _ | .number _ _ _ | .boolean _ | .null | .literal _ _ | .reference _ | .list _ _ _
  | .union _ _ _ _ => .isTrue trivial

/-- The fields of an object have distinct names, and none of its keys ends in two marks. -/
def Tidy (schema : Schema) : Prop := schema.Unambiguous ∧ schema.SinglyMarked

instance : DecidablePred Tidy := fun schema =>
  inferInstanceAs (Decidable (schema.Unambiguous ∧ schema.SinglyMarked))

variable {context : Context} {schema candidate : Schema} {stack : List (String × String)}

/-- References and unions are gone from a candidate. -/
theorem Derives.single (derived : Derives context schema candidate) :
    candidate.isReference = false ∧ candidate.isUnion = false := by
  induction derived with
  | @same schema leaf => cases schema <;> first | exact ⟨rfl, rfl⟩ | cases leaf
  | taken | object | list | emptyList => exact ⟨rfl, rfl⟩
  | reference _ _ ih => exact ih
  | union _ _ ih => exact ih

/-! ## 2. One alternative -/

/-- A schema covers what one of its alternatives covers, if that is neither a reference nor a
union. -/
theorem covered_of_alternative {this other : Context} {p q alternative : Schema}
    (single : q.isReference = false ∧ q.isUnion = false) (hm : alternative ∈ p.alternatives)
    (covered : Covered this other stack alternative q) : Covered this other stack p q := by
  cases nested : p.isUnion with
  | false =>
    rw [alternatives_of_not_union nested, List.mem_singleton] at hm
    exact hm ▸ covered
  | true =>
    have alone : q.alternatives = [q] := alternatives_of_not_union single.2
    cases p with
    | union members key title sample =>
      exact .choose (fun _ => alternative) single.1 (fun _ _ => hm)
        (alone ▸ List.forall_mem_singleton.mpr covered)
    | _ => cases nested

/-! ## 3. From derivations to comparisons -/

/-- The entries of a derived object have no marks left. -/
theorem required_of_origin {fields made : List (String × Schema)}
    (unmarked : ∀ key ∈ Fields.names fields, Key.isOptional (Key.name key) = false)
    {origin : String → String × Schema}
    (source : ∀ entry ∈ made, origin entry.1 ∈ fields ∧ Key.name (origin entry.1).1 = entry.1)
    {entry : String × Schema} (hm : entry ∈ made) : Key.isOptional entry.1 = false := by
  obtain ⟨hf, hn⟩ := source entry hm
  rw [← hn]
  exact unmarked _ (List.mem_map_of_mem hf)

/-- An alternative of the schema covers a candidate that is derived from it, from any stack. The
induction is on the derivation; it carries an alternative, because a comparison passes a union and
the unions among its members at once. -/
theorem Derives.covered_alternative (guarded : context.registry.Guarded)
    (registered : context.registry.Everywhere Tidy) (derived : Derives context schema candidate)
    (tidy : schema.Everywhere Tidy) (stack : List (String × String)) :
    ∃ alternative ∈ schema.alternatives, Covered context context stack alternative candidate := by
  induction derived generalizing stack with
  | @same schema leaf =>
    cases schema with
    | string range sample =>
      exact ⟨_, List.mem_singleton_self _, .string (isAccepted_rangeCovers_self _ _)⟩
    | number range fractional sample =>
      exact ⟨_, List.mem_singleton_self _, .number (isAccepted_rangeCovers_self _ _)⟩
    | boolean sample => exact ⟨_, List.mem_singleton_self _, .boolean⟩
    | null => exact ⟨_, List.mem_singleton_self _, .null⟩
    | literal value title =>
      exact ⟨_, List.mem_singleton_self _,
        .literal (accepts_literal_self context tidy.here.1 title)⟩
    | _ => cases leaf
  | taken fit =>
    obtain ⟨alternative, ha, fit⟩ := fit.alternative
    exact ⟨alternative, ha, .literal ((accepts_iff guarded).mpr fit)⟩
  | @reference name target candidate found derived ih =>
    obtain ⟨alternative, ha, covered⟩ := ih (registered.target found) (_ :: stack)
    exact ⟨_, List.mem_singleton_self _, .follow rfl (followed_of_find? found)
      (followed_self derived.single.1) (covered_of_alternative derived.single ha covered)⟩
  | @object fields made title origin source derived required ih =>
    obtain ⟨⟨distinct, unmarked⟩, below⟩ := everywhere_object.mp tidy
    have bare {entry : String × Schema} (hm : entry ∈ made) : Key.isOptional entry.1 = false :=
      required_of_origin unmarked source hm
    refine ⟨_, List.mem_singleton_self _,
      .object (fun field hf own ho => ?_) (fun field hf needed => ?_) fun _ own ho => ?_⟩
    · obtain ⟨hm, same⟩ := partner_eq_some ho
      obtain ⟨hf', hn⟩ := source own hm
      rw [Key.name_of_required (bare hm)] at same
      obtain ⟨alternative, ha, covered⟩ := ih own hm (below _ hf') stack
      rw [field_eq_of_name distinct hf' hf (hn.trans same)] at ha
      exact covered_of_alternative (derived own hm).single ha covered
    · obtain ⟨entry, hm, same⟩ := List.mem_map.mp (required field hf needed)
      have named : Key.name entry.1 = Key.name field.1 := by
        rw [Key.name_of_required (bare hm), same]
      obtain ⟨own, found⟩ := exists_partner hm named
      exact ⟨own, found, bare (partner_eq_some found).1⟩
    · obtain ⟨hf, hn⟩ := source own ho
      exact ⟨_, hf, by rw [hn, Key.name_of_required (bare ho)]⟩
  | list derived ih =>
    obtain ⟨alternative, ha, covered⟩ := ih (everywhere_list.mp tidy).2 stack
    exact ⟨_, List.mem_singleton_self _, .list (covered_of_alternative derived.single ha covered)⟩
  | emptyList =>
    exact ⟨_, List.mem_singleton_self _,
      .literal ((accepts_iff guarded).mpr (.list (List.forall_mem_nil _)))⟩
  | union hm _ ih =>
    obtain ⟨alternative, ha, covered⟩ := ih ((everywhere_union.mp tidy).2 _ hm) stack
    exact ⟨alternative, mem_alternativesOfAll_of_mem hm ha, covered⟩

/-- A candidate that is derived from a schema has a derivation for being covered by it. -/
theorem Derives.covered (guarded : context.registry.Guarded)
    (registered : context.registry.Everywhere Tidy) (derived : Derives context schema candidate)
    (tidy : schema.Everywhere Tidy) (stack : List (String × String)) :
    Covered context context stack schema candidate := by
  obtain ⟨alternative, ha, covered⟩ := derived.covered_alternative guarded registered tidy stack
  exact covered_of_alternative derived.single ha covered

/-! ## 4. Positive tests -/

/-- Over a guarded registry of tidy schemas every candidate for a positive test is covered by the
schema that it was listed for: the comparison has a verdict, and none refuses, whatever names are
under comparison already. The row leaves out nothing and binds no tokens. -/
theorem covers_of_variant {row : Row} (guarded : context.registry.Guarded) (bound : row.Plain)
    (tidy : schema.Everywhere Tidy) (registered : context.registry.Everywhere Tidy)
    (listed : .ok candidate ∈ (schema.variants context row).toList) :
    Accepting (covers context context schema candidate) ∧
      CoversAlways context context schema candidate := by
  have derived : Derives context schema candidate := derives_of_mem_variants bound listed
  have always : CoversAlways context context schema candidate := fun _ stack _ =>
    (derived.covered guarded registered tidy stack).isAccepted
  have settled : LiteralsSettle context context (schema, candidate) :=
    literalsSettle_of_guarded guarded
  obtain ⟨verdict, hv⟩ := Option.isSome_iff_exists.mp (covers_isSome settled)
  exact ⟨⟨verdict, hv, always _ _ _ hv⟩, always⟩

end Schema

/-- A step of a plan: a text, or an object with a number and with further steps under an optional
key, or none. -/
def planSteps : Registry :=
  .register "Step"
    (.union [.text, .object [("weight", .number ⟨none, some (.ofInt 10)⟩ false none),
      ("then?", .list (.named "Step") none none)] (some "Step"), .null] none none none) .initial

/-- A candidate for a step whose weight the row binds is covered by the steps. -/
theorem covers_of_variant_step :
    planSteps.Guarded ∧ (Row.empty.bind "weight" "3").Plain ∧
    (Schema.named "Step").Everywhere Schema.Tidy ∧ planSteps.Everywhere Schema.Tidy ∧
    ∃ candidate, candidate.title? = some "Step" ∧ .ok candidate ∈
      ((Schema.named "Step").variants (.ofRegistry planSteps)
        (Row.empty.bind "weight" "3")).toList ∧
      Accepting (Schema.covers (.ofRegistry planSteps) (.ofRegistry planSteps) (.named "Step")
          candidate) := by
  have guarded : planSteps.Guarded := Registry.guarded_of_rank (fun _ => 0) (by decide +kernel)
  have bound : (Row.empty.bind "weight" "3").Plain := ⟨rfl, by decide +kernel⟩
  have tidy : (Schema.named "Step").Everywhere Schema.Tidy := by decide +kernel
  have registered : planSteps.Everywhere Schema.Tidy := by decide +kernel
  have some : (((Schema.named "Step").variants (.ofRegistry planSteps)
      (Row.empty.bind "weight" "3")).toList.any fun attempt => match attempt with
        | .ok candidate => candidate.title? = some "Step"
        | .error _ => false) = true := by decide +kernel
  obtain ⟨attempt, listed, shape⟩ := List.any_eq_true.mp some
  cases attempt with
  | error halt => cases shape
  | ok candidate =>
    exact ⟨guarded, bound, tidy, registered, candidate, of_decide_eq_true shape, listed,
      (@Schema.covers_of_variant (.ofRegistry planSteps) _ _ _ guarded bound tidy
        registered listed).1⟩

end DataContract
