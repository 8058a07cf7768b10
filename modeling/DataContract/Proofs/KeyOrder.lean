import Mathlib
import DataContract.Proofs.Departure
import DataContract.Proofs.Divergence
import DataContract.Proofs.SameData

/-!
# The order of keys

A check looks a declared field up by its name, and it goes through the keys that are present only to
find those that are not declared. So the order in which an object lists its keys may show in the
order and the wording of the lines of a report, but neither in the verdict nor in the places that
the lines are about. That holds at every depth: failures from the inside of an object come to the
same places, and a union ends at the same alternative or has none to end at.

1. `Verdict.Alike`: both accept or both reject, and they name the same places in some order. It
   survives re-rooting and merging (`Verdict.Alike.under`, `Verdict.Alike.all_of_forall₂`).
2. `Schema.checkWithin_alike_of_same`: the same data have verdicts that are alike.
3. `Schema.check_same`: over a guarded registry both have one.
-/

namespace DataContract

/-! ## 1. Verdicts that differ in order only -/

/-- The paths in the report of a verdict, none when it accepts. -/
def Verdict.paths (verdict : Verdict) : List String :=
  verdict.failure?.toList.flatMap Failure.paths

theorem Verdict.paths_eq (verdict : Verdict) : verdict.paths = verdict.places.map renderPath := by
  rw [paths, places, List.map_flatMap]
  exact List.flatMap_congr fun failure _ => failure.paths_eq

theorem Verdict.places_of_isAccepted {verdict : Verdict} (accepted : verdict.isAccepted = true) :
    verdict.places = [] := by
  cases verdict with
  | accepted captured => rfl
  | rejected failure => cases accepted

/-- Both accept or both reject, and they name the same places in some order. -/
structure Verdict.Alike (first second : Verdict) : Prop where
  told : first.Agrees second
  places : first.places.Perm second.places

theorem flatMap_perm_of_forall₂ {α β γ : Type} {f : α → List γ} {g : β → List γ} {as : List α}
    {bs : List β} (each : List.Forall₂ (fun a b => (f a).Perm (g b)) as bs) :
    (as.flatMap f).Perm (bs.flatMap g) := by
  induction each with
  | nil => exact .refl _
  | cons own _ ih =>
    rw [List.flatMap_cons, List.flatMap_cons]
    exact own.append ih

namespace Verdict.Alike

theorem refl (verdict : Verdict) : verdict.Alike verdict := ⟨rfl, .refl _⟩

theorem trans {first second third : Verdict} (h : first.Alike second) (h' : second.Alike third) :
    first.Alike third :=
  ⟨h.told.trans h'.told, h.places.trans h'.places⟩

theorem accepted (captured captured' : Fields String) :
    (Verdict.accepted captured).Alike (.accepted captured') :=
  ⟨rfl, .refl _⟩

theorem plain (message message' : String) :
    (Verdict.rejected (.plain message)).Alike (.rejected (.plain message')) :=
  ⟨rfl, .refl _⟩

theorem under (segment : String) (first second : Verdict) (h : first.Alike second) :
    (first.under segment).Alike (second.under segment) := by
  refine ⟨by rw [Agrees, isAccepted_under, isAccepted_under, h.told], ?_⟩
  by_cases empty : segment = ""
  · have stays (verdict : Verdict) : verdict.under segment = verdict := by
      cases verdict with
      | accepted captured => rfl
      | rejected failure => rw [Verdict.under, Failure.under, if_pos empty]
    rw [stays, stays]
    exact h.places
  · rw [places_under empty, places_under empty]
    exact h.places.map _

theorem all_of_perm {verdicts verdicts' : List Verdict} (perm : verdicts.Perm verdicts') :
    (all verdicts).Alike (all verdicts') := by
  constructor
  · rw [Agrees, isAccepted_all, isAccepted_all, perm.all_eq]
  · rw [places_all, places_all]
    exact perm.flatMap_right _

theorem all_of_forall₂ {verdicts verdicts' : List Verdict}
    (each : List.Forall₂ Alike verdicts verdicts') : (all verdicts).Alike (all verdicts') := by
  constructor
  · rw [Agrees, isAccepted_all, isAccepted_all]
    exact all_isAccepted_congr (each.imp fun _ _ alike => alike.told)
  · rw [places_all, places_all]
    exact flatMap_perm_of_forall₂ (each.imp fun _ _ alike => alike.places)

end Verdict.Alike

section Failures

variable {failures failures' : List Failure}

theorem Failure.places_all_perm (each : List.Forall₂
      (fun failure failure' => failure.places.Perm failure'.places) failures failures') :
    (all failures).places.Perm (all failures').places := by
  cases each with
  | nil => exact .refl _
  | cons own others =>
    rw [places_all (List.cons_ne_nil _ _), places_all (List.cons_ne_nil _ _)]
    exact flatMap_perm_of_forall₂ (.cons own others)

/-- The failures of alternatives, put under the same markers, from whatever number these count. -/
theorem markFailures_places_perm (members : List Schema)
    (each : List.Forall₂ (fun failure failure' =>
      (Verdict.rejected failure).Alike (.rejected failure')) failures failures') :
    List.Forall₂ (fun failure failure' => failure.places.Perm failure'.places)
      (markFailures members failures) (markFailures members failures') := by
  have marked (place : Nat) :
      List.Forall₂ (fun failure failure' => failure.places.Perm failure'.places)
        (((failures.zip members).zipIdx place).map fun entry =>
          entry.1.1.under (alternativeMarker entry.1.2 entry.2))
        (((failures'.zip members).zipIdx place).map fun entry =>
          entry.1.1.under (alternativeMarker entry.1.2 entry.2)) := by
    induction each generalizing members place with
    | nil => exact .nil
    | cons own _ ih =>
      cases members with
      | nil => exact .nil
      | cons schema rest =>
        have places := (Verdict.Alike.under (alternativeMarker schema place) _ _ own).places
        rw [Verdict.under, Verdict.under, Verdict.places_rejected,
          Verdict.places_rejected] at places
        exact .cons places (ih rest (place + 1))
  exact marked 1

/-- A union that is reported as one failure is reported as the same alternative, or as a whole. -/
theorem unionFailure_alike (phrasing : Phrasing) (whole : Schema) (value other : Value)
    {members : List Schema} {check check' : Schema → Option Verdict}
    (below : ∀ schema, CarriesOver Verdict.Alike (check schema) (check' schema))
    (refused : List.Forall₂ (fun schema failure => check schema = some (.rejected failure))
      members failures)
    (refused' : List.Forall₂ (fun schema failure => check' schema = some (.rejected failure))
      members failures') :
    (Verdict.rejected (unionFailure phrasing whole members failures value)).Alike
      (.rejected (unionFailure phrasing whole members failures' other)) := by
  have stands := places_unionFailure phrasing whole value refused
  have stands' := places_unionFailure phrasing whole other refused'
  cases first : Schema.spokesman? members with
  | some schema =>
    simp only [first] at stands stands'
    obtain ⟨verdict, h, alike⟩ := below schema _ stands
    cases stands'.symm.trans h
    exact alike
  | none =>
    simp only [first] at stands stands'
    refine ⟨rfl, ?_⟩
    rw [Verdict.places_rejected, Verdict.places_rejected, stands, stands']

end Failures

/-- Keys in another order have the same problems, in another order. -/
theorem Context.keyProblems_perm (context : Context) (declared : List String)
    {actual actual' : List String} (perm : actual.Perm actual') :
    (context.keyProblems declared actual).Perm (context.keyProblems declared actual') := by
  have absent (key : String) : actual.contains key = actual'.contains key := by
    rw [Bool.eq_iff_iff, List.contains_iff_mem, List.contains_iff_mem, perm.mem_iff]
  rw [keyProblems, keyProblems]
  simp only [absent]
  refine .append_left _ ?_
  split
  · exact (perm.filter _).map _
  · exact .refl _

/-! ## 2. Checks of the same data -/

namespace Schema

variable {context : Context} {fuel : Nat} {schema : Schema} {value other : Value}

theorem isSome_of_isElementary (elementary : schema.isElementary = true) :
    (checkWithin context (fuel + 1) schema value).isSome := by
  rw [checkWithin_succ_isSome_iff]
  intro next part step
  cases step with
  | whole step => cases step <;> cases elementary
  | field | item => cases elementary

/-- Verdicts on the same data agree, since acceptance does not tell the data apart. -/
theorem agrees_of_same (distinct : value.Distinct) (same : value.same other = true)
    {verdict verdict' : Verdict} (h : checkWithin context fuel schema value = some verdict)
    (h' : checkWithin context fuel schema other = some verdict') :
    verdict.Agrees verdict' := by
  obtain ⟨back, distinct'⟩ := Value.same_symm distinct same
  rw [Verdict.Agrees, Bool.eq_iff_iff, isAccepted_checkWithin_iff h, isAccepted_checkWithin_iff h']
  constructor
  · intro accepted
    exact accepted.same distinct same
  · intro accepted
    exact accepted.same distinct' back

theorem alike_of_isElementary (elementary : schema.isElementary = true) (distinct : value.Distinct)
    (same : value.same other = true) :
    CarriesOver Verdict.Alike (checkWithin context (fuel + 1) schema value)
      (checkWithin context (fuel + 1) schema other) := by
  intro verdict h
  obtain ⟨verdict', h'⟩ : ∃ verdict', checkWithin context (fuel + 1) schema other = some verdict' :=
    Option.isSome_iff_exists.mp (isSome_of_isElementary elementary)
  have agrees := agrees_of_same distinct same h h'
  refine ⟨verdict', h', agrees, ?_⟩
  cases accepted : verdict.isAccepted with
  | true =>
    rw [Verdict.places_of_isAccepted accepted,
      Verdict.places_of_isAccepted (agrees.symm.trans accepted)]
  | false =>
    rw [places_of_isElementary elementary h accepted,
      places_of_isElementary elementary h' (agrees.symm.trans accepted)]

/-- The same data have verdicts in as many steps, and these are alike. -/
theorem checkWithin_alike_of_same (distinct : value.Distinct) (same : value.same other = true) :
    CarriesOver Verdict.Alike (checkWithin context fuel schema value)
      (checkWithin context fuel schema other) := by
  induction fuel generalizing schema value other with
  | zero => exact nofun
  | succ fuel ih =>
    by_cases elementary : schema.isElementary = true
    · exact alike_of_isElementary elementary distinct same
    cases schema with
    | string | number | boolean | null | literal => exact absurd rfl elementary
    | reference name =>
      simp only [checkWithin]
      split
      · exact ih distinct same
      · exact .some (.refl _)
    | object fields title =>
      cases value with
      | object entries =>
        cases other with
        | object others =>
          simp only [checkWithin, Option.bind_eq_bind]
          refine (checkFields_carriesOver Verdict.Alike.under fun field _ => ?_).bind
            fun verdicts verdicts' each => .some ?_
          · have near := Value.find?_same distinct same (Key.name field.1)
            generalize Fields.find? (Key.name field.1) entries = own,
              Fields.find? (Key.name field.1) others = part at near ⊢
            cases near with
            | none => exact .none
            | some near => exact .some (ih near.1 near.2)
          · have perm := context.keyProblems_perm (Fields.names fields)
              (Value.names_perm_of_same distinct.1 same)
            refine (Verdict.Alike.all_of_perm ((perm.map _).append_right verdicts)).trans
              (.all_of_forall₂ (List.rel_append (List.forall₂_same.mpr fun _ _ => .refl _) each))
        | _ => cases same
      | _ =>
        cases other with
        | object others => cases same
        | _ => exact .some (.plain _ _)
    | list item title sample =>
      cases value with
      | array items =>
        cases other with
        | array others =>
          simp only [checkWithin]
          have each := (Value.forall₂_of_sameItems distinct same).imp fun _ _ near =>
            @ih item _ _ near.1 near.2
          exact (checkItems_carriesOver Verdict.Alike.under each 0).map fun _ _ => .all_of_forall₂
        | _ => cases same
      | _ =>
        cases other with
        | array others => cases same
        | _ => exact .some (.plain _ _)
    | union members key title sample =>
      simp only [checkWithin, Option.bind_eq_bind]
      intro verdict h
      obtain ⟨result, hr, h⟩ := Option.bind_eq_some_iff.mp h
      obtain ⟨result', hr', near⟩ := firstAccepted_carriesOver (fun _ _ alike => alike.told)
        (fun schema _ => @ih schema value other distinct same) result hr
      rw [hr', Option.bind_some]
      cases near with
      | ok =>
        cases h
        exact ⟨_, rfl, .accepted _ _⟩
      | error each =>
        simp only at h ⊢
        split at h
        · next one =>
          cases h
          rw [if_pos one]
          exact ⟨_, rfl, unionFailure_alike context.phrasing _ value other (fun _ =>
            ih distinct same) (firstAccepted_failures hr) (firstAccepted_failures hr')⟩
        · next several =>
          cases h
          rw [if_neg several]
          refine ⟨_, rfl, rfl, ?_⟩
          rw [Verdict.places_rejected, Verdict.places_rejected]
          exact Failure.places_all_perm (markFailures_places_perm members each)

theorem check_alike_of_same (distinct : value.Distinct) (same : value.same other = true) :
    CarriesOver Verdict.Alike (schema.check context value) (schema.check context other) := by
  intro verdict h
  obtain ⟨verdict', h', alike⟩ := checkWithin_alike_of_same distinct same verdict h
  exact ⟨verdict', check_eq_of_checkWithin h', alike⟩

/-! ## 3. Reports on the same data -/

/-- Over a guarded registry the same data are both accepted or both rejected, and the two reports
name the same paths, each as often. That an object lists a key once goes for all data. -/
theorem check_same (guarded : context.registry.Guarded) (distinct : value.Distinct)
    (same : value.same other = true) :
    ∃ verdict verdict', schema.check context value = some verdict ∧
      schema.check context other = some verdict' ∧
      (verdict.isAccepted = true ↔ verdict'.isAccepted = true) ∧
      verdict.paths.Perm verdict'.paths := by
  obtain ⟨verdict, h⟩ := Option.isSome_iff_exists.mp (check_isSome guarded schema value)
  obtain ⟨verdict', h', alike⟩ := check_alike_of_same distinct same verdict h
  refine ⟨verdict, verdict', h, h', by rw [alike.told], ?_⟩
  rw [Verdict.paths_eq, Verdict.paths_eq]
  exact alike.places.map renderPath

end Schema

/-- A node with two keys too many. So has the next one, among other faults. -/
def crowdedNode : Value :=
  .object [("value", .string "x"), ("next", .object [("value", .integer 11), ("size", .null)]),
    ("size", .null), ("weight", .null)]

/-- The same node, with its keys the other way round. -/
def turnedNode : Value :=
  .object [("weight", .null), ("size", .null),
    ("next", .object [("size", .null), ("value", .integer 11)]), ("value", .string "x")]

/-- The two reports name the same places, and their order shows which way round the keys were. -/
theorem check_same_turnedNode :
    linkedNodes.Guarded ∧ crowdedNode.Distinct ∧ crowdedNode.same turnedNode = true ∧
    ∃ verdict verdict',
      (Schema.named "Node").check (.ofRegistry linkedNodes) crowdedNode = some verdict ∧
      (Schema.named "Node").check (.ofRegistry linkedNodes) turnedNode = some verdict' ∧
      (verdict.isAccepted = true ↔ verdict'.isAccepted = true) ∧
      verdict.paths.Perm verdict'.paths ∧
      verdict.paths = ["size", "weight", "value", "next.next", "next.size", "next.value"] ∧
      verdict'.paths = ["weight", "size", "value", "next.next", "next.size", "next.value"] := by
  have distinct : crowdedNode.Distinct := by decide +kernel
  have same : crowdedNode.same turnedNode = true := by decide +kernel
  obtain ⟨verdict, verdict', h, h', told, perm⟩ := @Schema.check_same (.ofRegistry linkedNodes)
    (.named "Node") _ _ guarded_linkedNodes distinct same
  have run : ((Schema.named "Node").check (.ofRegistry linkedNodes) crowdedNode).map Verdict.paths =
      some ["size", "weight", "value", "next.next", "next.size", "next.value"] := by decide +kernel
  have run' : ((Schema.named "Node").check (.ofRegistry linkedNodes) turnedNode).map Verdict.paths =
      some ["weight", "size", "value", "next.next", "next.size", "next.value"] := by decide +kernel
  rw [h] at run
  rw [h'] at run'
  exact ⟨guarded_linkedNodes, distinct, same, verdict, verdict', h, h', told, perm,
    Option.some.inj run, Option.some.inj run'⟩

end DataContract
