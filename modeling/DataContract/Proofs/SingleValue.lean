import Mathlib
import DataContract.Proofs.Decision

/-!
# A single value as a schema

The schema of exactly one value is covered by the schemas that accept the value, and by no others.
The two sides are different recursions. A comparison takes unions apart at once, follows one
reference at a time and takes a pair of names that it has met before for compatible; a check goes
down member by member and keeps nothing. Over a guarded registry they agree, because no reference is
met again in front of its own target, so that the comparison never answers from the stack. In other
registries it may: a name that stands for itself covers every value, and no check of it ends.

1. `Schema.EnteredInFront`: what the pairs of names under comparison have to do with the container.
2. `Schema.Covered.accepts_literal`: what covers a literal accepts its value.
3. `Schema.covers_exactly`: comparing with a single value and checking it are the same.
-/

namespace DataContract
namespace Schema

variable {this other : Context} {stack : List (String × String)} {container target : Schema}

/-! ## 1. The stack -/

/-- Every pair of names under comparison is there for a reference, and the container is in front of
the target of that reference. -/
def EnteredInFront (registry : Registry) (stack : List (String × String)) (container : Schema) :
    Prop :=
  ∀ names ∈ stack, ∃ source target : Schema, source.isReference = true ∧ source.typeName = names.1 ∧
    source.followed registry = .ok target ∧ Fronts registry target container

/-- A reference that is followed is entered. -/
theorem EnteredInFront.follow {registry : Registry} {name : String}
    (entered : EnteredInFront registry stack container) (refers : container.isReference = true)
    (found : container.followed registry = .ok target) :
    EnteredInFront registry ((container.typeName, name) :: stack) target := by
  refine List.forall_mem_cons.mpr ⟨⟨container, target, refers, rfl, found, .self⟩,
    fun names hn => ?_⟩
  obtain ⟨source, start, hr, named, hf, front⟩ := entered names hn
  exact ⟨source, start, hr, named, hf, front.followed refers found⟩

theorem EnteredInFront.alternative {registry : Registry} {members : List Schema}
    {key title sample : Option String}
    (entered : EnteredInFront registry stack (union members key title sample))
    {alternative : Schema} (hm : alternative ∈ alternativesOfAll members) :
    EnteredInFront registry stack alternative := by
  intro names hn
  obtain ⟨source, start, hr, named, hf, front⟩ := entered names hn
  exact ⟨source, start, hr, named, hf, front.alternative alternative hm⟩

/-- In a guarded registry the name of a reference is not on the stack. -/
theorem EnteredInFront.fresh {registry : Registry} (guarded : registry.Guarded)
    (entered : EnteredInFront registry stack container) (refers : container.isReference = true)
    (name : String) : (container.typeName, name) ∉ stack := by
  intro seen
  obtain ⟨source, start, hr, named, found, front⟩ := entered _ seen
  rw [followed_eq_of_typeName hr refers named] at found
  exact not_fronts_of_followed guarded refers found front

/-! ## 2. Covering a literal -/

/-- What covers a literal accepts its value. The candidate stays the literal all along, so the
derivation ends at a node of the container where the value was checked. -/
theorem Covered.accepts_literal (guarded : this.registry.Guarded) {value : Value}
    {title : Option String}
    (covered : Covered this other stack container (Schema.literal value title))
    (entered : EnteredInFront this.registry stack container) :
    Accepts this.registry this.keyPolicy container value := by
  generalize exact : Schema.literal value title = candidate at covered
  induction covered with
  | @seen stack p q refers seen =>
    subst exact
    have refers : p.isReference = true := (Bool.or_false _).symm.trans refers
    exact absurd seen (entered.fresh guarded refers _)
  | @follow stack p q target source refers hp hq _ ih =>
    subst exact
    cases hq
    have refers : p.isReference = true := (Bool.or_false _).symm.trans refers
    have fits := ih (entered.follow refers hp) rfl
    cases p with
    | reference name => exact .reference (find?_of_followed hp) fits
    | _ => cases refers
  | @choose stack members _ _ _ q container free chosen _ ih =>
    subst exact
    have here := List.mem_singleton_self (Schema.literal value title)
    have fits := ih _ here (entered.alternative (chosen _ here)) rfl
    exact alternatives_up (P := fun schema => Accepts this.registry this.keyPolicy schema value)
      (fun _ _ _ _ _ => .union) (chosen _ here) fits
  | literal accepted =>
    cases exact
    exact .of_accepts accepted
  | each | string | number | boolean | null | object | list => cases exact

/-! ## 3. Comparing and checking -/

/-- Over a guarded registry a schema covers exactly one value when it accepts it. Both the
comparison and the check have a verdict, and the two agree. -/
theorem covers_exactly (guarded : this.registry.Guarded) (other : Context) (schema : Schema)
    (value : Value) :
    ∃ fits, (covers this other schema (exactly value)).map Verdict.isAccepted = some fits ∧
      schema.accepts this value = some fits := by
  have settled : LiteralsSettle this other (schema, exactly value) :=
    literalsSettle_of_guarded guarded
  obtain ⟨verdict, compared⟩ := Option.isSome_iff_exists.mp (covers_isSome settled)
  obtain ⟨result, checked⟩ := Option.isSome_iff_exists.mp (check_isSome guarded schema value)
  refine ⟨verdict.isAccepted, by rw [compared]; rfl, ?_⟩
  have agree : result.isAccepted = true ↔ verdict.isAccepted = true := by
    rw [isAccepted_checkWithin_iff checked]
    refine ⟨fun fits => isAccepted_coversWithin_literal fits compared, fun accepted => ?_⟩
    exact Covered.accepts_literal guarded (coversWithin_covered ⟨verdict, compared, accepted⟩) nofun
  rw [accepts, checked, Option.map_some, Bool.eq_iff_iff.mpr agree]

end Schema

/-- An amount or none, a flag that there is nothing to pay, or a list of all these. -/
def bills : Registry :=
  .register "Bill"
    (.union [.named "Amount", .list (.named "Bill") none none,
      .union [.exactly (.object [("free", .boolean true)]), .null] none none none] none none none)
    (.register "Amount" (.nullable (.number ⟨some (.ofInt 0), none⟩ false none)) .initial)

/-- A list of bills is covered as a single value, because it is accepted. A bill may be an amount in
front, an amount is never a bill. -/
theorem covers_exactly_bills :
    bills.Guarded ∧
    (Schema.named "Bill").accepts (.ofRegistry bills)
      (.array [.integer 3, .array [.null], .object [("free", .boolean true)]]) = some true ∧
    (Schema.covers (.ofRegistry bills) (.ofRegistry .initial) (.named "Bill")
      (.exactly (.array [.integer 3, .array [.null], .object [("free", .boolean true)]]))).map
        Verdict.isAccepted = some true := by
  have guarded : bills.Guarded :=
    Registry.guarded_of_rank (fun name => if name = "(Bill)" then 1 else 0) (by decide +kernel)
  have accepted : (Schema.named "Bill").accepts (.ofRegistry bills)
      (.array [.integer 3, .array [.null], .object [("free", .boolean true)]]) = some true := by
    decide +kernel
  obtain ⟨fits, compared, checked⟩ :=
    @Schema.covers_exactly (.ofRegistry bills) guarded (.ofRegistry .initial) (.named "Bill") _
  cases checked.symm.trans accepted
  exact ⟨guarded, accepted, compared⟩

end DataContract
