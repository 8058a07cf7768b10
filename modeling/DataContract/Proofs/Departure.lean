import Mathlib
import DataContract.Proofs.Acceptance
import DataContract.Proofs.Merging
import DataContract.Proofs.RoundTrip
import DataContract.Report

/-!
# Where a value departs from a schema

Failures are put under segments, merged and sometimes dropped on their way up, and a report flattens
what is left. `Schema.Departs` says of a schema and a value which places the report names, without
failures and without messages, and a check reports exactly those places, each once and in order.

1. `Schema.Departs`: the places, by recursion over the schema and the value.
   `Schema.Departs.unique`: there is one list of them; `Schema.Departs.eq_nil_iff`: it is empty
   exactly when the value fits.
2. `Verdict.places_all`, `Verdict.places_under`: the leaves of a verdict through merging and
   re-rooting.
3. `Schema.departs_checkWithin`: a verdict names the places where the value departs.
-/

namespace DataContract

/-! ## 1. Places -/

/-- The problems with keys that a policy reports, each under its own name: keys that are required
and absent, then names that are not declared. -/
def KeyPolicy.places (policy : KeyPolicy) (declared actual : List String) : List (List String) :=
  (if policy.missing then
    (declared.filter fun key => ¬Key.isOptional key = true ∧ key ∉ actual).map ([·])
  else []) ++
  (if policy.unexpected then
    (actual.filter fun name => name ∉ declared.map Key.name).map ([·])
  else [])

theorem Context.places_eq_map (context : Context) (declared actual : List String) :
    context.keyPolicy.places declared actual =
      (context.keyProblems declared actual).map ([·.name]) := by
  have missing : (declared.filter fun key => !Key.isOptional key && !actual.contains key) =
      declared.filter fun key => ¬Key.isOptional key = true ∧ key ∉ actual :=
    List.filter_congr fun key _ => by simp
  have unexpected : (actual.filter fun name => !declared.any fun key => Key.name key == name) =
      actual.filter fun name => name ∉ declared.map Key.name :=
    List.filter_congr fun name _ => by rw [Bool.eq_iff_iff]; simp
  rw [keyProblems, KeyPolicy.places, missing, unexpected, List.map_append]
  congr 1 <;> split <;> simp

theorem KeyPolicy.places_eq_nil_iff (policy : KeyPolicy) (declared actual : List String) :
    policy.places declared actual = [] ↔ policy.Allows declared actual := by
  have told := ({ Context.ofRegistry .initial with keyPolicy := policy } : Context).places_eq_map
    declared actual
  rw [told, List.map_eq_nil_iff, Context.keyProblems_eq_nil_iff]

/-- The places in the fields that are present, in declared order. -/
def fieldPlaces (below : Schema → Value → List (List String)) (entries : Fields Value)
    (fields : List (String × Schema)) : List (List String) :=
  fields.flatMap fun (key, schema) =>
    (Fields.find? (Key.name key) entries).toList.flatMap fun value =>
      (below schema value).map (Key.name key :: ·)

/-- The places in the items, which are counted from `place`. -/
def itemPlaces (below : Value → List (List String)) (place : Nat) : List Value → List (List String)
  | [] => []
  | item :: rest =>
    (below item).map (("[" ++ place.repr ++ "]") :: ·) ++ itemPlaces below (place + 1) rest

/-- The places in the alternatives, which are counted from `place`. -/
def memberPlaces (below : Schema → List (List String)) (place : Nat) :
    List Schema → List (List String)
  | [] => []
  | schema :: rest =>
    (below schema).map (alternativeMarker schema place :: ·) ++ memberPlaces below (place + 1) rest

section Below

variable {below below' : Schema → Value → List (List String)} {entries : Fields Value}
  {fields : List (String × Schema)}

theorem fieldPlaces_cons_of_none {key : String} (schema : Schema)
    (h : Fields.find? (Key.name key) entries = none) :
    fieldPlaces below entries ((key, schema) :: fields) = fieldPlaces below entries fields := by
  simp [fieldPlaces, h]

theorem fieldPlaces_cons_of_some {key : String} (schema : Schema) {value : Value}
    (h : Fields.find? (Key.name key) entries = some value) :
    fieldPlaces below entries ((key, schema) :: fields) =
      (below schema value).map (Key.name key :: ·) ++ fieldPlaces below entries fields := by
  simp [fieldPlaces, h]

theorem fieldPlaces_congr
    (h : ∀ field ∈ fields, ∀ value, Fields.find? (Key.name field.1) entries = some value →
      below field.2 value = below' field.2 value) :
    fieldPlaces below entries fields = fieldPlaces below' entries fields :=
  List.flatMap_congr fun field hf => List.flatMap_congr fun value hv =>
    congrArg _ (h field hf value (Option.mem_toList.mp hv))

theorem fieldPlaces_eq_nil_iff :
    fieldPlaces below entries fields = [] ↔
      ∀ field ∈ fields, ∀ value, Fields.find? (Key.name field.1) entries = some value →
        below field.2 value = [] := by
  simp [fieldPlaces]

theorem itemPlaces_congr {below below' : Value → List (List String)} {place : Nat}
    {items : List Value} (h : ∀ value ∈ items, below value = below' value) :
    itemPlaces below place items = itemPlaces below' place items := by
  induction items generalizing place with
  | nil => rfl
  | cons item rest ih =>
    obtain ⟨own, others⟩ := List.forall_mem_cons.mp h
    rw [itemPlaces, itemPlaces, own, ih others]

theorem itemPlaces_eq_nil_iff {below : Value → List (List String)} {place : Nat}
    {items : List Value} :
    itemPlaces below place items = [] ↔ ∀ value ∈ items, below value = [] := by
  induction items generalizing place with
  | nil => simp [itemPlaces]
  | cons item rest ih => simp [itemPlaces, ih]

theorem memberPlaces_congr {below below' : Schema → List (List String)} {place : Nat}
    {members : List Schema} (h : ∀ schema ∈ members, below schema = below' schema) :
    memberPlaces below place members = memberPlaces below' place members := by
  induction members generalizing place with
  | nil => rfl
  | cons schema rest ih =>
    obtain ⟨own, others⟩ := List.forall_mem_cons.mp h
    rw [memberPlaces, memberPlaces, own, ih others]

theorem memberPlaces_eq_nil_iff {below : Schema → List (List String)} {place : Nat}
    {members : List Schema} :
    memberPlaces below place members = [] ↔ ∀ schema ∈ members, below schema = [] := by
  induction members generalizing place with
  | nil => simp [memberPlaces]
  | cons schema rest ih => simp [memberPlaces, ih]

end Below

namespace Schema

/-- Neither a reference nor made of other schemas. -/
def isElementary : Schema → Bool
  | string _ _ | number _ _ _ | boolean _ | null | literal _ _ => true
  | reference _ | object _ _ | list _ _ _ | union _ _ _ _ => false

/-- The one alternative that a whole union can stand for: the only one, or the one beside the marker
for "no value". -/
def spokesman? (members : List Schema) : Option Schema :=
  match members with
  | [only] => some only
  | _ => if isNullablePair members then members.find? (!·.isEmptyMarker) else none

/-- Whether null or nothing but literals stand behind the alternatives. Such a union is reported as
one failure. -/
def isReportedAsOne (registry : Registry) (members : List Schema) : Bool :=
  (members.map registry.resolve).any isNull || (members.map registry.resolve).all isLiteral

/-- The places where a value departs from a schema, in the order of a report. -/
inductive Departs (registry : Registry) (policy : KeyPolicy) :
    Schema → Value → List (List String) → Prop
  | fits {schema : Schema} {value : Value} : schema.isElementary = true →
      Accepts registry policy schema value → Departs registry policy schema value []
  | mismatch {schema : Schema} {value : Value} : schema.isElementary = true →
      ¬Accepts registry policy schema value → Departs registry policy schema value [[]]
  | unknown {name : String} {value : Value} : registry.find? name = none →
      Departs registry policy (.reference name) value [[]]
  | reference {name : String} {target : Schema} {value : Value} {places : List (List String)} :
      registry.find? name = some target → Departs registry policy target value places →
      Departs registry policy (.reference name) value places
  | notObject {fields : List (String × Schema)} {title : Option String} {value : Value} :
      value.asObject? = none → Departs registry policy (.object fields title) value [[]]
  | object {fields : List (String × Schema)} {title : Option String} {entries : Fields Value}
      (below : Schema → Value → List (List String)) :
      (∀ field ∈ fields, ∀ value, Fields.find? (Key.name field.1) entries = some value →
        Departs registry policy field.2 value (below field.2 value)) →
      Departs registry policy (.object fields title) (.object entries)
        (policy.places (Fields.names fields) (Fields.names entries) ++
          fieldPlaces below entries fields)
  | notArray {item : Schema} {title sample : Option String} {value : Value} :
      value.asArray? = none → Departs registry policy (.list item title sample) value [[]]
  | list {item : Schema} {title sample : Option String} {items : List Value}
      (below : Value → List (List String)) :
      (∀ value ∈ items, Departs registry policy item value (below value)) →
      Departs registry policy (.list item title sample) (.array items) (itemPlaces below 0 items)
  /-- One alternative accepts. -/
  | member {members : List Schema} {key title sample : Option String} {value : Value} :
      (∃ schema ∈ members, Accepts registry policy schema value) →
      Departs registry policy (.union members key title sample) value []
  /-- No alternative accepts, and one of them stands for the union. -/
  | spokesman {members : List Schema} {key title sample : Option String} {value : Value}
      {schema : Schema} {places : List (List String)} :
      (¬∃ schema ∈ members, Accepts registry policy schema value) →
      isReportedAsOne registry members = true → spokesman? members = some schema →
      Departs registry policy schema value places →
      Departs registry policy (.union members key title sample) value places
  /-- No alternative accepts, and the union is reported as a whole. -/
  | whole {members : List Schema} {key title sample : Option String} {value : Value} :
      (¬∃ schema ∈ members, Accepts registry policy schema value) →
      isReportedAsOne registry members = true → spokesman? members = none →
      Departs registry policy (.union members key title sample) value [[]]
  /-- No alternative accepts, and each is reported under its marker. -/
  | members {members : List Schema} {key title sample : Option String} {value : Value}
      (below : Schema → List (List String)) :
      (¬∃ schema ∈ members, Accepts registry policy schema value) →
      isReportedAsOne registry members = false →
      (∀ schema ∈ members, Departs registry policy schema value (below schema)) →
      Departs registry policy (.union members key title sample) value (memberPlaces below 1 members)

section Unique

variable {registry : Registry} {policy : KeyPolicy} {schema : Schema} {value : Value}
  {places other : List (List String)}

/-- The places are determined by the schema and the value. -/
theorem Departs.unique (h : Departs registry policy schema value places)
    (h' : Departs registry policy schema value other) : places = other := by
  induction h generalizing other with
  | fits elementary accepted =>
    cases h' with
    | fits => rfl
    | mismatch _ refused => exact absurd accepted refused
    | _ => cases elementary
  | mismatch elementary refused =>
    cases h' with
    | fits _ accepted => exact absurd accepted refused
    | mismatch => rfl
    | _ => cases elementary
  | unknown absent =>
    cases h' with
    | fits elementary | mismatch elementary => cases elementary
    | unknown => rfl
    | reference found => cases absent.symm.trans found
  | reference found _ ih =>
    cases h' with
    | fits elementary | mismatch elementary => cases elementary
    | unknown absent => cases absent.symm.trans found
    | reference found' inner =>
      cases found.symm.trans found'
      exact ih inner
  | notObject other =>
    cases h' with
    | fits elementary | mismatch elementary => cases elementary
    | notObject => rfl
    | object => cases other
  | object below _ ih =>
    cases h' with
    | fits elementary | mismatch elementary => cases elementary
    | notObject other => cases other
    | object below' inner =>
      exact congrArg _ (fieldPlaces_congr fun field hf value found =>
        ih field hf value found (inner field hf value found))
  | notArray other =>
    cases h' with
    | fits elementary | mismatch elementary => cases elementary
    | notArray => rfl
    | list => cases other
  | list below _ ih =>
    cases h' with
    | fits elementary | mismatch elementary => cases elementary
    | notArray other => cases other
    | list below' inner =>
      exact itemPlaces_congr fun value hv => ih value hv (inner value hv)
  | member some =>
    cases h' with
    | fits elementary | mismatch elementary => cases elementary
    | member => rfl
    | spokesman none | whole none | members _ none => exact absurd some none
  | spokesman none one first _ ih =>
    cases h' with
    | fits elementary | mismatch elementary => cases elementary
    | member some => exact absurd some none
    | spokesman _ _ first' inner =>
      cases first.symm.trans first'
      exact ih inner
    | whole _ _ first' => cases first.symm.trans first'
    | members _ _ several => cases one.symm.trans several
  | whole none one first =>
    cases h' with
    | fits elementary | mismatch elementary => cases elementary
    | member some => exact absurd some none
    | spokesman _ _ first' _ => cases first.symm.trans first'
    | whole => rfl
    | members _ _ several => cases one.symm.trans several
  | members below none several _ ih =>
    cases h' with
    | fits elementary | mismatch elementary => cases elementary
    | member some => exact absurd some none
    | spokesman _ one | whole _ one => cases one.symm.trans several
    | members below' _ _ inner =>
      exact memberPlaces_congr fun schema hs => ih schema hs (inner schema hs)

theorem mem_of_spokesman? {members : List Schema} (h : spokesman? members = some schema) :
    schema ∈ members := by
  unfold spokesman? at h
  split at h
  · cases h
    exact List.mem_singleton_self _
  · split at h
    · exact List.mem_of_find?_eq_some h
    · cases h

/-- A value departs nowhere exactly when it fits. -/
theorem Departs.eq_nil_iff (h : Departs registry policy schema value places) :
    places = [] ↔ Accepts registry policy schema value := by
  induction h with
  | fits _ accepted => exact iff_of_true rfl accepted
  | mismatch _ refused => exact iff_of_false (List.cons_ne_nil _ _) refused
  | unknown absent =>
    refine iff_of_false (List.cons_ne_nil _ _) fun | .reference found _ => ?_
    cases absent.symm.trans found
  | reference found _ ih =>
    refine ih.trans ⟨.reference found, fun | .reference found' accepted => ?_⟩
    cases found.symm.trans found'
    exact accepted
  | notObject other =>
    exact iff_of_false (List.cons_ne_nil _ _) fun | .object _ _ => nomatch other
  | object below _ ih =>
    rw [List.append_eq_nil_iff, policy.places_eq_nil_iff, fieldPlaces_eq_nil_iff]
    constructor
    · rintro ⟨allowed, empty⟩
      exact .object allowed fun field hf value found =>
        (ih field hf value found).mp (empty field hf value found)
    · rintro (_ | _ | _ | _ | _ | _ | ⟨allowed, accepted⟩)
      exact ⟨allowed, fun field hf value found =>
        (ih field hf value found).mpr (accepted field hf value found)⟩
  | notArray other =>
    exact iff_of_false (List.cons_ne_nil _ _) fun | .list _ => nomatch other
  | list below _ ih =>
    rw [itemPlaces_eq_nil_iff]
    exact ⟨fun empty => .list fun value hv => (ih value hv).mp (empty value hv),
      fun | .list accepted => fun value hv => (ih value hv).mpr (accepted value hv)⟩
  | member some =>
    obtain ⟨schema, hs, accepted⟩ := some
    exact iff_of_true rfl (.union hs accepted)
  | spokesman none _ first _ ih =>
    refine iff_of_false (fun empty => none ⟨_, mem_of_spokesman? first, ih.mp empty⟩) ?_
    exact fun | .union hs accepted => none ⟨_, hs, accepted⟩
  | whole none =>
    exact iff_of_false (List.cons_ne_nil _ _) fun | .union hs accepted => none ⟨_, hs, accepted⟩
  | @members members _ _ _ _ below none several _ ih =>
    refine iff_of_false (fun empty => ?_) fun | .union hs accepted => none ⟨_, hs, accepted⟩
    rw [memberPlaces_eq_nil_iff] at empty
    cases members with
    | nil => cases several
    | cons schema rest =>
      exact none ⟨schema, List.mem_cons_self, (ih schema List.mem_cons_self).mp
        (empty schema List.mem_cons_self)⟩

end Unique

end Schema

/-! ## 2. The places of a verdict -/

/-- The places of the leaves. -/
def Failure.places (failure : Failure) : List (List String) := failure.leaves.map (·.path)

/-- The places that a verdict names, none when it accepts. -/
def Verdict.places (verdict : Verdict) : List (List String) :=
  verdict.failure?.toList.flatMap Failure.places

namespace Failure

@[simp] theorem places_plain (message : String) : (plain message).places = [[]] := rfl

theorem places_all {failures : List Failure} (h : failures ≠ []) :
    (all failures).places = failures.flatMap places := by
  rw [places, leaves_all h, List.map_flatMap]
  rfl

theorem places_under {segment : String} (h : segment ≠ "") (failure : Failure) :
    (failure.under segment).places = failure.places.map (segment :: ·) := by
  rw [places, leaves_under, places, List.map_map, List.map_map]
  refine List.map_congr_left fun leaf _ => ?_
  simp [Leaf.under, h]

theorem paths_eq (failure : Failure) : failure.paths = failure.places.map renderPath := by
  simp [paths, entries, Report.ofFailure, Report.Entry.ofLeaf, places]

end Failure

namespace Verdict

@[simp] theorem places_accepted (captured : Fields String) : (accepted captured).places = [] := rfl

@[simp] theorem places_rejected (failure : Failure) : (rejected failure).places = failure.places :=
  List.flatMap_singleton _ _

/-- Merged verdicts name the places of each, one after the other. -/
theorem places_all (verdicts : List Verdict) : (all verdicts).places = verdicts.flatMap places := by
  have failures : verdicts.flatMap places =
      (verdicts.filterMap failure?).flatMap Failure.places := by
    induction verdicts with
    | nil => rfl
    | cons verdict rest ih => cases verdict <;> simp [ih, failure?, places, List.filterMap_cons]
  rw [failures, all]
  split
  · next none => rw [none]; rfl
  · next some => rw [places_rejected, Failure.places_all some]

/-- From one level up, every place is one segment further down. -/
theorem places_under {segment : String} (h : segment ≠ "") (verdict : Verdict) :
    (verdict.under segment).places = verdict.places.map (segment :: ·) := by
  cases verdict with
  | accepted captured => rfl
  | rejected failure => simp [under, Failure.places_under h]

end Verdict

/-- The places that a check names, none where it gives no verdict. -/
def placesOf (check : Schema → Value → Option Verdict) (schema : Schema) (value : Value) :
    List (List String) :=
  (check schema value).toList.flatMap Verdict.places

theorem placesOf_some {check : Schema → Value → Option Verdict} {schema : Schema} {value : Value}
    {verdict : Verdict} (h : check schema value = some verdict) :
    placesOf check schema value = verdict.places := by
  simp [placesOf, h]

section Parts

variable {check : Schema → Value → Option Verdict}

/-- Key problems stand under the keys that they are about. -/
theorem places_keyProblems (context : Context) {declared actual : List String}
    (named : ∀ key ∈ declared, Key.name key ≠ "") (keyed : "" ∉ actual) :
    (context.keyProblems declared actual).flatMap
        (fun problem => (problem.failure "key" context.phrasing).places) =
      context.keyPolicy.places declared actual := by
  have nonempty : ∀ problem ∈ context.keyProblems declared actual, problem.name ≠ "" := by
    intro problem hp
    rw [Context.keyProblems, List.mem_append] at hp
    rcases hp with hp | hp
    · split at hp
      · obtain ⟨key, hk, rfl⟩ := List.mem_map.mp hp
        obtain ⟨listed, absent⟩ := List.mem_filter.mp hk
        have required : Key.isOptional key = false := by simp_all
        exact Key.name_of_required required ▸ named key listed
      · cases hp
    · split at hp
      · obtain ⟨name, hn, rfl⟩ := List.mem_map.mp hp
        exact fun empty => keyed (empty ▸ List.mem_of_mem_filter hn)
      · cases hp
  rw [context.places_eq_map, List.map_eq_flatMap]
  refine List.flatMap_congr fun problem hp => ?_
  rw [KeyProblem.failure, Failure.places_under (nonempty problem hp), Failure.places_plain]
  rfl

/-- The fields that are present have verdicts, which name the places in them. -/
theorem checkFields_places {entries : Fields Value} {fields : List (String × Schema)}
    {verdicts : List Verdict} (named : ∀ field ∈ fields, Key.name field.1 ≠ "")
    (h : checkFields check entries fields = some verdicts) :
    (∀ field ∈ fields, ∀ value, Fields.find? (Key.name field.1) entries = some value →
      (check field.2 value).isSome) ∧
    verdicts.flatMap Verdict.places = fieldPlaces (placesOf check) entries fields := by
  induction fields generalizing verdicts with
  | nil =>
    cases h
    exact ⟨nofun, rfl⟩
  | cons field rest ih =>
    obtain ⟨key, schema⟩ := field
    obtain ⟨own, others⟩ := List.forall_mem_cons.mp named
    rw [List.forall_mem_cons]
    cases found : Fields.find? (Key.name key) entries with
    | none =>
      rw [checkFields_cons_of_none check schema rest found] at h
      obtain ⟨checked, places⟩ := ih others h
      exact ⟨⟨nofun, checked⟩, places.trans (fieldPlaces_cons_of_none schema found).symm⟩
    | some value =>
      rw [checkFields_cons_of_some check schema rest found] at h
      simp only [Option.bind_eq_some_iff, Option.map_eq_some_iff] at h
      obtain ⟨verdict, hv, verdicts, ho, rfl⟩ := h
      obtain ⟨checked, places⟩ := ih others ho
      refine ⟨⟨fun value' same => ?_, checked⟩, ?_⟩
      · cases same
        exact Option.isSome_of_eq_some hv
      · rw [List.flatMap_cons, Verdict.places_under own, places,
          fieldPlaces_cons_of_some schema found, placesOf_some hv]

/-- The items have verdicts, which name the places in them. -/
theorem checkItems_places {item : Schema} {values : List Value} {start : Nat}
    {verdicts : List Verdict} (h : checkItems (check item) start values = some verdicts) :
    (∀ value ∈ values, (check item value).isSome) ∧
    verdicts.flatMap Verdict.places = itemPlaces (placesOf check item) start values := by
  induction values generalizing start verdicts with
  | nil =>
    cases h
    exact ⟨nofun, rfl⟩
  | cons value rest ih =>
    rw [checkItems_cons] at h
    simp only [Option.bind_eq_some_iff, Option.map_eq_some_iff] at h
    obtain ⟨verdict, hv, verdicts, ho, rfl⟩ := h
    obtain ⟨checked, places⟩ := ih ho
    have segment : "[" ++ start.repr ++ "]" ≠ "" := by
      intro empty
      have := congrArg String.length empty
      simp at this
    refine ⟨List.forall_mem_cons.mpr ⟨Option.isSome_of_eq_some hv, checked⟩, ?_⟩
    rw [List.flatMap_cons, Verdict.places_under segment, places, itemPlaces,
      placesOf_some hv]

/-- When no alternative accepts, there is a failure for each. -/
theorem firstAccepted_failures {check : Schema → Option Verdict} {members : List Schema}
    {failures : List Failure} (h : firstAccepted check members = some (.error failures)) :
    List.Forall₂ (fun schema failure => check schema = some (.rejected failure)) members
        failures := by
  induction members generalizing failures with
  | nil =>
    cases h
    exact .nil
  | cons schema rest ih =>
    rw [firstAccepted_cons] at h
    simp only [Option.bind_eq_some_iff] at h
    obtain ⟨verdict, hv, h⟩ := h
    cases verdict with
    | accepted captured => cases h
    | rejected failure =>
      simp only [Option.map_eq_some_iff] at h
      obtain ⟨result, hr, same⟩ := h
      cases result with
      | ok captured => cases same
      | error others =>
        cases same
        exact .cons hv (ih hr)

theorem isSome_of_failures {check : Schema → Option Verdict} {members : List Schema}
    {failures : List Failure} (h : List.Forall₂ (fun schema failure =>
      check schema = some (.rejected failure)) members failures) :
    ∀ schema ∈ members, (check schema).isSome := by
  induction h with
  | nil => exact nofun
  | cons own _ ih => exact List.forall_mem_cons.mpr ⟨Option.isSome_of_eq_some own, ih⟩

/-- A union that is reported as one failure is reported as its spokesman, or as a whole. -/
theorem places_unionFailure (phrasing : Phrasing) (whole : Schema) (value : Value)
    {members : List Schema} {failures : List Failure} {check : Schema → Option Verdict}
    (h : List.Forall₂ (fun schema failure => check schema = some (.rejected failure))
      members failures) :
    match Schema.spokesman? members with
    | some schema =>
      check schema = some (.rejected (unionFailure phrasing whole members failures value))
    | none => (unionFailure phrasing whole members failures value).places = [[]] := by
  match members, failures, h with
  | [], [], _ => rfl
  | [only], [failure], .cons own .nil => exact own
  | [first, second], [failure, other], .cons own (.cons others .nil) =>
    cases hf : first.isEmptyMarker <;> cases hs : second.isEmptyMarker <;>
      simp [Schema.spokesman?, unionFailure, Schema.isNullablePair, hf, hs, own, others,
        Phrasing.valueMismatch]
  | first :: second :: third :: rest, _ :: _ :: _ :: _, .cons _ (.cons _ (.cons _ _)) =>
    simp [Schema.spokesman?, unionFailure, Schema.isNullablePair, Phrasing.valueMismatch]

theorem alternativeMarker_ne (schema : Schema) (place : Nat) :
    alternativeMarker schema place ≠ "" := by
  have brackets (a b : String) (h : b ≠ "") : a ++ b ≠ "" := by simp [h]
  unfold alternativeMarker
  split
  · exact brackets _ _ (by decide)
  · exact brackets _ _ (by decide)

/-- Marked failures name the places in each alternative under its marker. -/
theorem places_markFailures {check : Schema → Option Verdict} {members : List Schema}
    {failures : List Failure} (h : List.Forall₂ (fun schema failure =>
      check schema = some (.rejected failure)) members failures) :
    (markFailures members failures).flatMap Failure.places =
      memberPlaces (fun schema => (check schema).toList.flatMap Verdict.places) 1 members := by
  have marked (place : Nat) :
      (((failures.zip members).zipIdx place).map fun entry =>
        entry.1.1.under (alternativeMarker entry.1.2 entry.2)).flatMap Failure.places =
      memberPlaces (fun schema => (check schema).toList.flatMap Verdict.places) place members := by
    induction h generalizing place with
    | nil => rfl
    | @cons schema failure members failures own _ ih =>
      rw [memberPlaces, ← ih (place + 1)]
      simp [own, Failure.places_under (alternativeMarker_ne schema place)]
  exact marked 1

end Parts

/-! ## 3. Checks -/

/-- No field is without a name. -/
def Schema.Named : Schema → Prop
  | object fields _ => ∀ field ∈ fields, Key.name field.1 ≠ ""
  | _ => True

instance : DecidablePred Schema.Named
  | .object fields _ => inferInstanceAs (Decidable (∀ field ∈ fields, Key.name field.1 ≠ ""))
  | .string _ _ | .number _ _ _ | .boolean _ | .null | .literal _ _ | .reference _ | .list _ _ _
  | .union _ _ _ _ => .isTrue trivial

namespace Value

mutual

/-- The keys of all objects inside. -/
def keys : Value → List String
  | array items => keysOfItems items
  | object entries => keysOfEntries entries
  | _ => []

def keysOfItems : List Value → List String
  | [] => []
  | item :: rest => keys item ++ keysOfItems rest

def keysOfEntries : List (String × Value) → List String
  | [] => []
  | (key, value) :: rest => key :: keys value ++ keysOfEntries rest

end

theorem mem_keys_of_mem {items : List Value} {item : Value} {key : String} (h : item ∈ items)
    (hk : key ∈ item.keys) : key ∈ (array items).keys := by
  rw [keys]
  induction items with
  | nil => cases h
  | cons first rest ih =>
    rw [keysOfItems]
    rcases List.mem_cons.mp h with rfl | hr
    · exact List.mem_append_left _ hk
    · exact List.mem_append_right _ (ih hr)

theorem mem_keys_of_mem_names {entries : Fields Value} {name : String}
    (h : name ∈ Fields.names entries) : name ∈ (object entries).keys := by
  rw [keys]
  induction entries with
  | nil => cases h
  | cons entry rest ih =>
    obtain ⟨key, value⟩ := entry
    rw [keysOfEntries]
    rcases List.mem_cons.mp h with rfl | hr
    · exact List.mem_append_left _ List.mem_cons_self
    · exact List.mem_append_right _ (ih hr)

theorem mem_keys_of_find? {entries : Fields Value} {name key : String} {value : Value}
    (h : Fields.find? name entries = some value) (hk : key ∈ value.keys) :
    key ∈ (object entries).keys := by
  have listed := Fields.mem_of_find? h
  clear h
  rw [keys]
  induction entries with
  | nil => cases listed
  | cons entry rest ih =>
    obtain ⟨name, first⟩ := entry
    rw [keysOfEntries]
    rcases List.mem_cons.mp listed with same | hr
    · cases same
      exact List.mem_append_left _ (List.mem_cons_of_mem _ hk)
    · exact List.mem_append_right _ (ih hr)

end Value

namespace Schema

variable {context : Context} {fuel : Nat} {schema : Schema} {value : Value} {verdict : Verdict}

/-- What is refused at one node is refused there. -/
theorem places_of_isElementary (elementary : schema.isElementary = true)
    (h : checkWithin context fuel schema value = some verdict)
    (refused : verdict.isAccepted = false) :
    verdict.places = [[]] := by
  have plain (message : String) : (Verdict.rejected (.plain message)).places = [[]] := by simp
  cases fuel with
  | zero => cases h
  | succ fuel =>
    cases schema with
    | string range sample =>
      cases value with
      | string text =>
        cases h
        revert refused
        unfold LengthRange.check
        dsimp only
        split
        · exact fun _ => plain _
        · split
          · exact fun _ => plain _
          · exact nofun
      | _ => cases h; exact plain _
    | number range fractional sample =>
      cases value with
      | number n =>
        cases h
        revert refused
        unfold NumberRange.check
        dsimp only
        split
        · exact fun _ => plain _
        · split
          · exact fun _ => plain _
          · exact nofun
      | _ => cases h; exact plain _
    | boolean sample =>
      cases value with
      | boolean b => cases h; cases refused
      | _ => cases h; exact plain _
    | null =>
      cases value with
      | null => cases h; cases refused
      | _ => cases h; exact plain _
    | literal expected title =>
      simp only [checkWithin] at h
      split at h
      · cases h; cases refused
      · cases h; exact plain _
    | reference | object | list | union => cases elementary

/-- A verdict names the places where the value departs, each once and in order. -/
theorem departs_checkWithin (registered : context.registry.Everywhere Named)
    (named : schema.Everywhere Named) (keyed : "" ∉ value.keys)
    (h : checkWithin context fuel schema value = some verdict) :
    Departs context.registry context.keyPolicy schema value verdict.places := by
  induction fuel generalizing schema value verdict with
  | zero => cases h
  | succ fuel ih =>
    have below (schema : Schema) (value : Value) (named : schema.Everywhere Named)
        (keyed : "" ∉ value.keys) (h : (checkWithin context fuel schema value).isSome) :
        Departs context.registry context.keyPolicy schema value
          (placesOf (checkWithin context fuel) schema value) := by
      obtain ⟨verdict, hv⟩ := Option.isSome_iff_exists.mp h
      exact placesOf_some hv ▸ ih named keyed hv
    by_cases elementary : schema.isElementary = true
    · cases accepted : verdict.isAccepted with
      | true =>
        have fits := (isAccepted_checkWithin_iff h).mp accepted
        cases verdict with
        | accepted captured => exact .fits elementary fits
        | rejected failure => cases accepted
      | false =>
        rw [places_of_isElementary elementary h accepted]
        exact .mismatch elementary fun fits => by
          rw [(isAccepted_checkWithin_iff h).mpr fits] at accepted
          cases accepted
    cases schema with
    | string | number | boolean | null | literal => exact absurd rfl elementary
    | reference name =>
      simp only [checkWithin, Registry.lookup] at h
      cases found : context.registry.find? name with
      | none =>
        simp only [found, Option.some.injEq] at h
        subst h
        exact .unknown found
      | some target =>
        simp only [found] at h
        exact .reference found (ih (registered.target found) keyed h)
    | object fields title =>
      cases value with
      | object entries =>
        simp only [checkWithin, Option.bind_eq_bind, Option.bind_eq_some_iff] at h
        obtain ⟨verdicts, hv, h⟩ := h
        cases h
        obtain ⟨here, inside⟩ := everywhere_object.mp named
        obtain ⟨checked, places⟩ := checkFields_places here hv
        rw [Verdict.places_all, List.flatMap_append, places, List.flatMap_map]
        simp only [Verdict.places_rejected]
        have declared : ∀ key ∈ Fields.names fields, Key.name key ≠ "" :=
          List.forall_mem_map.mpr here
        rw [places_keyProblems context declared (mt Value.mem_keys_of_mem_names keyed)]
        refine .object _ fun field hf value found => ?_
        exact below _ _ (inside field hf) (fun empty => keyed (Value.mem_keys_of_find? found empty))
          (checked field hf value found)
      | _ => cases h; exact .notObject rfl
    | list item title sample =>
      cases value with
      | array items =>
        simp only [checkWithin, Option.map_eq_some_iff] at h
        obtain ⟨verdicts, hv, rfl⟩ := h
        obtain ⟨checked, places⟩ := checkItems_places hv
        rw [Verdict.places_all, places]
        refine .list _ fun value hm => ?_
        exact below _ _ (everywhere_list.mp named).2
          (fun empty => keyed (Value.mem_keys_of_mem hm empty)) (checked value hm)
      | _ => cases h; exact .notArray rfl
    | union members key title sample =>
      have inside := (everywhere_union.mp named).2
      simp only [checkWithin, Option.bind_eq_bind, Option.bind_eq_some_iff] at h
      obtain ⟨result, hr, h⟩ := h
      have tells (schema : Schema) (value : Value) (verdict : Verdict)
          (h : checkWithin context fuel schema value = some verdict) :
          verdict.isAccepted = true ↔ Accepts context.registry context.keyPolicy schema value :=
        isAccepted_checkWithin_iff h
      have some_iff := firstAccepted_isOk_iff tells hr
      cases result with
      | ok captured =>
        cases h
        exact .member (some_iff.mp rfl)
      | error failures =>
        have none := mt some_iff.mpr Bool.false_ne_true
        have refused := firstAccepted_failures hr
        simp only at h
        split at h
        · next one =>
          cases h
          rw [Verdict.places_rejected]
          have stands := places_unionFailure context.phrasing (.union members key title sample)
            value refused
          split at stands
          · next schema first =>
            have places := ih (inside schema (mem_of_spokesman? first)) keyed stands
            rw [Verdict.places_rejected] at places
            exact .spokesman none one first places
          · next first =>
            rw [stands]
            exact .whole none one first
        · next several =>
          cases h
          have some : markFailures members failures ≠ [] := by
            cases refused with
            | nil => exact absurd rfl several
            | cons => simp [markFailures]
          rw [Verdict.places_rejected, Failure.places_all some, places_markFailures refused]
          refine .members _ none (eq_false_of_ne_true several) fun schema hs => ?_
          exact below schema value (inside schema hs) keyed (isSome_of_failures refused schema hs)

/-- Over a guarded registry a check names exactly the places where the value departs from the
schema, each once and in order. -/
theorem check_places (guarded : context.registry.Guarded)
    (registered : context.registry.Everywhere Named) {schema : Schema}
    (named : schema.Everywhere Named) {value : Value} (keyed : "" ∉ value.keys) :
    ∃ verdict places, schema.check context value = some verdict ∧
      (∀ other, Departs context.registry context.keyPolicy schema value other ↔ other = places) ∧
      verdict.failure?.toList.flatMap Failure.paths = places.map renderPath := by
  obtain ⟨verdict, hv⟩ := Option.isSome_iff_exists.mp (check_isSome guarded schema value)
  have departs := departs_checkWithin registered named keyed hv
  refine ⟨verdict, verdict.places, hv, fun other => ⟨fun h => h.unique departs, ?_⟩, ?_⟩
  · rintro rfl
    exact departs
  · rw [Verdict.places, List.map_flatMap]
    exact List.flatMap_congr fun failure _ => failure.paths_eq

end Schema

/-- A node whose value is no number, with a key too many, and whose next one is neither a node nor
null. -/
def brokenNode : Value :=
  .object [("value", .string "x"), ("next", .object [("value", .integer 11)]), ("size", .null)]

/-- The report on a broken node. The link to the next one is a nullable pair and reported as the
node. -/
theorem check_places_brokenNode :
    linkedNodes.Guarded ∧ linkedNodes.Everywhere Schema.Named ∧
    (Schema.named "Node").Everywhere Schema.Named ∧ "" ∉ brokenNode.keys ∧
    ∃ verdict places, (Schema.named "Node").check (.ofRegistry linkedNodes) brokenNode =
      some verdict ∧ (∀ other, Schema.Departs linkedNodes .strict (.named "Node") brokenNode other ↔
        other = places) ∧
      verdict.failure?.toList.flatMap Failure.paths = places.map renderPath ∧
      places.map renderPath = ["size", "value", "next.next", "next.value"] := by
  have registered : linkedNodes.Everywhere Schema.Named := by decide +kernel
  have named : (Schema.named "Node").Everywhere Schema.Named := by decide +kernel
  have keyed : "" ∉ brokenNode.keys := by decide +kernel
  obtain ⟨verdict, places, checked, only, paths⟩ := @Schema.check_places (.ofRegistry linkedNodes)
    guarded_linkedNodes registered _ named _ keyed
  have run : ((Schema.named "Node").check (.ofRegistry linkedNodes) brokenNode).map
      (fun verdict => verdict.failure?.toList.flatMap Failure.paths) =
        some ["size", "value", "next.next", "next.value"] := by decide +kernel
  rw [checked] at run
  exact ⟨guarded_linkedNodes, registered, named, keyed, verdict, places, checked, only, paths,
    paths ▸ Option.some.inj run⟩

end DataContract
