import Mathlib
import DataContract.Proofs.Decision
import DataContract.Schema.Mutation

/-!
# Comparing a schema with a scalar

A comparison with a scalar follows references and takes unions apart, and ends at the first node
that is neither. A scalar is checked there at once, so no registry keeps it from a verdict.

1. `Schema.covers_isSome_of_isScalar`: a comparison with a scalar has a verdict, hence
   `Schema.someCovers_isSome`.
2. `Schema.coversAlways_of_fronts`: a schema covers what one of the schemas in front of it covers.
   `Schema.someCovers_of_mem`: a union that drops the scalars which it covers finds such a member.
-/

namespace DataContract
namespace Schema

/-! ## 1. Verdicts -/

variable {this other : Context} {candidate : Schema}

/-- A scalar is checked at the first node that is neither a reference nor a union. -/
theorem check_isSome_of_isScalar (context : Context) {container : Schema} {value : Value}
    (single : container.isReference = false) (whole : container.isUnion = false)
    (scalar : value.isScalar = true) : (container.check context value).isSome := by
  obtain ⟨fuel, steps⟩ := exists_check_eq context container value
  rw [steps]
  cases container with
  | reference => cases single
  | union => cases whole
  | literal expected title =>
    simp only [checkWithin]
    split <;> rfl
  | _ => cases value <;> first | rfl | cases scalar

/-- A comparison with a scalar comes to no other literal than the scalar. -/
theorem literalsSettle_of_isScalar (scalar : candidate.isScalar = true) (container : Schema) :
    LiteralsSettle this other (container, candidate) := by
  intro p value title reach single whole
  have alone : candidate.Everywhere fun node => node.isScalar = true := by
    cases candidate <;> first | exact List.forall_mem_singleton.mpr scalar | cases scalar
  have kept {schema target : Schema} (h : schema.Everywhere fun node => node.isScalar = true)
      (found : schema.followed other.registry = .ok target) :
      target.Everywhere fun node => node.isScalar = true :=
    followed_of_not_reference (neither_of_isScalar h.here).1 found ▸ h
  have any {schema target : Schema} (_ : schema.Everywhere fun _ => True)
      (_ : schema.followed this.registry = .ok target) : target.Everywhere fun _ => True :=
    fun _ _ => trivial
  obtain ⟨-, own⟩ := reach.everywhere any kept ⟨fun _ _ => trivial, alone⟩
  exact check_isSome_of_isScalar this single whole own.here

/-- Every comparison with a scalar has a verdict. -/
theorem covers_isSome_of_isScalar (this other : Context) (container : Schema)
    (scalar : candidate.isScalar = true) : (covers this other container candidate).isSome :=
  covers_isSome (literalsSettle_of_isScalar scalar container)

theorem someCovers_isSome (context : Context) (members : List Schema) {scalar : Schema}
    (h : scalar.isScalar = true) : (someCovers context members scalar).isSome := by
  induction members with
  | nil => rfl
  | cons schema rest ih =>
    obtain ⟨verdict, hv⟩ :=
      Option.isSome_iff_exists.mp (covers_isSome_of_isScalar context context schema h)
    simp only [someCovers, hv, Option.bind_eq_bind, Option.bind_some]
    split
    · rfl
    · exact ih

/-! ## 2. What is in front -/

/-- A schema covers a scalar if one of its alternatives does. -/
theorem coversAlways_of_alternative (scalar : candidate.isScalar = true)
    {container alternative : Schema}
    (hm : alternative ∈ container.alternatives)
    (covered : CoversAlways this other alternative candidate) :
    CoversAlways this other container candidate := by
  intro fuel stack verdict h
  cases nested : container.isUnion with
  | false =>
    rw [alternatives_of_not_union nested, List.mem_singleton] at hm
    exact covered fuel stack verdict (hm ▸ h)
  | true =>
    obtain ⟨single, whole⟩ := neither_of_isScalar scalar
    cases container with
    | union members key title sample =>
      cases fuel with
      | zero => cases h
      | succ fuel =>
        refine isAccepted_coversWithin_union single ?_ h
        rw [alternatives_of_not_union whole, List.forall_mem_singleton]
        exact ⟨alternative, hm, fun own ho => covered fuel stack own ho⟩
    | _ => cases nested

/-- A reference covers a scalar if its target does. -/
theorem coversAlways_of_target (scalar : candidate.isScalar = true) {name : String}
    {target : Schema} (found : this.registry.find? name = some target)
    (covered : CoversAlways this other target candidate) :
    CoversAlways this other (reference name) candidate := by
  intro fuel stack verdict h
  have own := followed_of_find? found
  have itself : candidate.followed other.registry = .ok candidate :=
    followed_self (neither_of_isScalar scalar).1
  cases fuel with
  | zero => cases h
  | succ fuel =>
    unfold coversWithin at h
    dsimp only at h
    rw [own, itself] at h
    simp only [isReference, Bool.true_or, if_true] at h
    split at h
    · cases h
      rfl
    · exact covered fuel _ verdict h

/-- A schema covers a scalar if a schema in front of it does that is no union. The induction goes
back along the walk; it carries an alternative, since a comparison passes a union and the unions
among its members at once. -/
theorem coversAlways_of_fronts (scalar : candidate.isScalar = true) {container schema : Schema}
    (front : Fronts this.registry container schema) (whole : schema.isUnion = false)
    (covered : CoversAlways this other schema candidate) :
    CoversAlways this other container candidate := by
  obtain ⟨alternative, ha, own⟩ :
      ∃ alternative ∈ container.alternatives, CoversAlways this other alternative candidate := by
    have last : ∃ alternative ∈ schema.alternatives,
        CoversAlways this other alternative candidate :=
      ⟨schema, by rw [alternatives_of_not_union whole, List.mem_singleton], covered⟩
    clear whole covered
    induction front with
    | self => exact last
    | member _ hm ih =>
      obtain ⟨alternative, ha, own⟩ := last
      exact ih ⟨alternative, mem_alternativesOfAll_of_mem hm ha, own⟩
    | target _ found ih =>
      obtain ⟨alternative, ha, own⟩ := last
      exact ih ⟨_, List.mem_singleton_self _,
        coversAlways_of_target scalar found (coversAlways_of_alternative scalar ha own)⟩
  exact coversAlways_of_alternative scalar ha own

/-- Among schemas of which one covers a scalar it is found. -/
theorem someCovers_of_mem {context : Context} {members : List Schema} {scalar schema : Schema}
    (single : scalar.isScalar = true) (hm : schema ∈ members)
    (covered : CoversAlways context context schema scalar) :
    someCovers context members scalar = some true := by
  induction members with
  | nil => cases hm
  | cons first rest ih =>
    obtain ⟨verdict, hv⟩ :=
      Option.isSome_iff_exists.mp (covers_isSome_of_isScalar context context first single)
    simp only [someCovers, hv, Option.bind_eq_bind, Option.bind_some]
    split
    · rfl
    · next rejected =>
      refine ih ((List.mem_cons.mp hm).resolve_left fun same => ?_)
      exact rejected (covered _ _ verdict (same ▸ hv))

end Schema
end DataContract
