import Mathlib
import DataContract.Proofs.Parameters
import DataContract.Proofs.Transitivity

/-!
# A parameter that is one of several scalars

A union reads a text once, with the first alternative that can read it, and all alternatives are
then asked about that one value. An alternative that would have read the text in another way is not
given the chance: of a number up to 10 or any text, the text 77 is a number that is too great.

1. `Schema.read_of_accepts`: scalars that accept a value read a text in the way of its kind.
2. `Query.readFirst`: what several alternatives read in a text. It is what a union of scalars reads
   (`Query.readOrText_scalarUnion`), and it takes the texts that an alternative takes which reads
   just this in them (`Query.takes_scalarUnion_iff`).
3. `Query.check_scalarUnion`: so does a parameter that is declared as one, whatever the registry.
-/

namespace DataContract

/-! ## 1. Reading by kind -/

theorem Attempt.ofReading_eq_ok_iff {literal expected : String} {value? : Option Value}
    {value : Value} :
    Attempt.ofReading literal expected value? = .ok value ↔ value? = some value := by
  cases value? <;> simp [Attempt.ofReading]

/-- What is read like a value is read like itself. -/
theorem Value.readAlike_of_readAlike {model value : Value} {raw : String}
    (scalar : model.isScalar = true)
    (read : model.readAlike raw = .ok value) : value.readAlike raw = .ok value := by
  cases model with
  | string _ =>
    cases read
    rfl
  | number _ =>
    obtain ⟨n, rfl⟩ := exists_number_of_readNumber? (Attempt.ofReading_eq_ok_iff.mp read)
    exact read
  | boolean _ =>
    obtain ⟨b, rfl⟩ := exists_boolean_of_readBoolean? (Attempt.ofReading_eq_ok_iff.mp read)
    exact read
  | null =>
    obtain rfl := eq_null_of_readNull? (Attempt.ofReading_eq_ok_iff.mp read)
    exact read
  | array | object => cases scalar

namespace Schema

variable {registry : Registry} {schema : Schema} {value : Value} {raw : String}

/-- What accepts a value reads a text like that value: a literal accepts values of its own kind
only. -/
theorem read_of_accepts {policy : KeyPolicy} (scalar : schema.isScalar = true)
    (fits : Accepts registry policy schema value) :
    schema.read registry raw = value.readAlike raw := by
  cases fits with
  | @literal expected _ _ same =>
    cases expected <;> cases value <;>
      first | (simp [Value.sameLiteral, Value.same] at same; done) | rfl
  | reference | object | list | union => cases scalar
  | _ => rfl

/-- A scalar reads like some value. -/
theorem exists_readAlike (scalar : schema.isScalar = true) (registry : Registry) (raw : String) :
    ∃ model : Value, model.isScalar = true ∧ schema.read registry raw = model.readAlike raw := by
  cases schema with
  | string => exact ⟨.string "", rfl, rfl⟩
  | number => exact ⟨.integer 0, rfl, rfl⟩
  | boolean => exact ⟨.boolean false, rfl, rfl⟩
  | null => exact ⟨.null, rfl, rfl⟩
  | literal value title => exact ⟨value, scalar, rfl⟩
  | reference | object | list | union => cases scalar

theorem readWithin_of_isScalar (scalar : schema.isScalar = true) {fuel : Nat} (enough : 0 < fuel) :
    readWithin registry fuel schema raw = schema.read registry raw := by
  cases fuel with
  | zero => cases enough
  | succ fuel => cases schema <;> first | rfl | cases scalar

theorem read_ne_endless_of_isScalar (scalar : schema.isScalar = true) (registry : Registry)
    (raw : String) : schema.read registry raw ≠ .error .endless := by
  obtain ⟨model, _, read⟩ := exists_readAlike scalar registry raw
  rw [read]
  exact model.readAlike_ne_endless raw

/-! ## 2. The reading that counts -/

theorem resolve_scalars {members : List Schema}
    (scalars : ∀ schema ∈ members, schema.isScalar = true) :
    members.map registry.resolve = members := by
  refine (List.map_congr_left fun schema hm => ?_).trans (List.map_id members)
  exact resolve_of_not_reference (neither_of_isScalar (scalars schema hm)).1

/-- A union of scalars reads with the first alternative that can read the text. -/
theorem read_scalarUnion (registry : Registry) {members : List Schema}
    (scalars : ∀ schema ∈ members, schema.isScalar = true) (key title sample : Option String)
    (raw : String) :
    (union members key title sample).read registry raw =
      match firstRead registry members raw with
      | some value => .ok value
      | none => .error (.error (.unreadable raw (members.map typeName))) := by
  have each : ∀ schema ∈ nullsLast (members.map registry.resolve), schema.isScalar = true := by
    rw [resolve_scalars scalars]
    exact fun schema hm => scalars schema (mem_of_mem_nullsLast hm)
  have below : ∀ schema ∈ nullsLast (members.map registry.resolve),
      schema.read registry raw ≠ .error .endless :=
    fun schema hs => read_ne_endless_of_isScalar (each schema hs) registry raw
  have ends : (union members key title sample).read registry raw ≠ .error .endless := by
    have first : firstReading
        (readWithin registry ((union members key title sample).size + registry.size) · raw)
        (nullsLast (members.map registry.resolve)) ≠ .error .endless := by
      refine firstReading_ne_endless fun schema hs => ?_
      rw [readWithin_of_isScalar (each schema hs) (by simp only [size]; omega)]
      exact below schema hs
    rw [read, chainBudget, readWithin_union]
    revert first
    cases firstReading (readWithin registry ((union members key title sample).size +
        registry.size) · raw) (nullsLast (members.map registry.resolve)) with
    | error halt =>
      intro first same
      cases same
      exact first rfl
    | ok value? =>
      intro _ same
      cases value? <;> cases same
  exact read_union_of_ends ends below

end Schema

namespace Query

variable {context : Context} {members : List Schema} {key title sample : Option String}
  {raw : String}

/-- What several alternatives read in a text: what the first of them that can read it reads there,
null being tried last, and the text itself where none can. -/
def readFirst (registry : Registry) (members : List Schema) (raw : String) : Value :=
  ((members.filter (!·.isNull) ++ members.filter (·.isNull)).findSome? fun schema =>
    (schema.read registry raw).toOption).getD (.string raw)

/-- So reads a union of scalars. -/
theorem readOrText_scalarUnion (registry : Registry)
    (scalars : ∀ schema ∈ members, schema.isScalar = true) (key title sample : Option String)
    (raw : String) : readOrText registry (.union members key title sample) raw =
      some (readFirst registry members raw) := by
  have whole := Schema.read_scalarUnion registry scalars key title sample raw
  unfold Schema.firstRead at whole
  rw [Schema.resolve_scalars scalars] at whole
  unfold readOrText readFirst
  rw [whole]
  cases List.findSome? _ _ <;> rfl

/-- Some alternative reads just this, as itself where it can read the text, and as a text
otherwise. -/
theorem exists_readOrText_eq (registry : Registry) (some : members ≠ [])
    (scalars : ∀ schema ∈ members, schema.isScalar = true) (raw : String) :
    ∃ schema ∈ members, readOrText registry schema raw =
        .some (readFirst registry members raw) := by
  have inside {schema : Schema} :
      schema ∈ members.filter (!·.isNull) ++ members.filter (·.isNull) ↔ schema ∈ members :=
    ⟨Schema.mem_of_mem_nullsLast, Schema.mem_nullsLast⟩
  unfold readFirst
  cases first : (members.filter (!·.isNull) ++ members.filter (·.isNull)).findSome? fun schema =>
      (schema.read registry raw).toOption with
  | some value =>
    obtain ⟨schema, hm, read⟩ := List.exists_of_findSome?_eq_some first
    refine ⟨schema, inside.mp hm, ?_⟩
    unfold readOrText
    revert read
    cases schema.read registry raw with
    | ok own => exact fun same => same
    | error halt => exact nofun
  | none =>
    obtain ⟨schema, hm⟩ := List.exists_mem_of_ne_nil _ some
    have unread := List.findSome?_eq_none_iff.mp first schema (inside.mpr hm)
    have ends := Schema.read_ne_endless_of_isScalar (scalars schema hm) registry raw
    refine ⟨schema, hm, ?_⟩
    unfold readOrText
    revert unread ends
    rcases schema.read registry raw with (cause | _) | own
    · exact fun _ _ => rfl
    · exact fun _ ends => absurd rfl ends
    · exact nofun

/-- What a scalar reads in a text, its like would read as well. -/
theorem readAlike_of_readOrText {schema : Schema} (scalar : schema.isScalar = true) {value : Value}
    (read : readOrText context.registry schema raw = some value) :
    value.readAlike raw = .ok value := by
  obtain ⟨model, single, like⟩ := Schema.exists_readAlike scalar context.registry raw
  unfold readOrText at read
  rw [like] at read
  split at read
  · next own =>
    cases read
    exact Value.readAlike_of_readAlike single own
  · cases read
    rfl
  · cases read

/-- A union of scalars takes the texts that an alternative takes which reads them as the first one
that can read them. -/
theorem takes_scalarUnion_iff (some : members ≠ [])
    (scalars : ∀ schema ∈ members, schema.isScalar = true) :
    Takes context (.union members key title sample) raw ↔
      ∃ schema ∈ members, readOrText context.registry schema raw =
        .some (readFirst context.registry members raw) ∧ Takes context schema raw := by
  have whole := readOrText_scalarUnion context.registry scalars key title sample raw
  constructor
  · rintro ⟨value, read, fits⟩
    obtain rfl : readFirst context.registry members raw = value :=
      Option.some.inj (whole.symm.trans read)
    cases fits with
    | @union _ _ _ _ schema _ hm fits =>
      obtain ⟨reader, hr, same⟩ := exists_readOrText_eq context.registry some scalars raw
      have alike := readAlike_of_readOrText (scalars reader hr) same
      have own : readOrText context.registry schema raw =
          .some (readFirst context.registry members raw) := by
        rw [readOrText, Schema.read_of_accepts (scalars schema hm) fits, alike]
      exact ⟨schema, hm, own, _, own, fits⟩
  · rintro ⟨schema, hm, same, value, read, fits⟩
    exact ⟨value, whole.trans (same.symm.trans read), .union hm fits⟩

/-! ## 3. One parameter -/

/-- A single parameter that is no list fits when its key suits the policy and each text under its
name is taken. -/
theorem fits_single_iff {name : String} {schema : Schema} {pairs : List (String × String)}
    (single : schema.isReference = false) (plain : schema.isList = false) :
    Query.Fits context ⟨[(name, schema)]⟩ pairs ↔
      context.keyPolicy.Allows [name] (pairs.map (·.1)) ∧
        ∀ text ∈ textsUnder (Key.name name) pairs, Takes context schema text := by
  have part : context.registry.partSchema schema = schema :=
    Registry.partSchema_of_not_list (by rw [Schema.resolve_of_not_reference single, plain])
  have own : ([(name, schema)].filter (·.1 == name)).map (·.2) = [schema] := by simp
  rw [← part, ← valuesFit_single_iff, ← own, part]
  constructor
  · rintro ⟨allowed, values⟩
    exact ⟨allowed, values name (List.mem_singleton_self name)⟩
  · rintro ⟨allowed, values⟩
    exact ⟨allowed, List.forall_mem_singleton.mpr values⟩

/-- A single parameter without references always has a verdict, whatever the registry. -/
theorem check_single_isSome (name : String) {schema : Schema} (plain : schema.isList = false)
    (free : schema.ReferenceFree)
    (readable : ∀ raw, (readOrText context.registry schema raw).isSome)
    (pairs : List (String × String)) : (Query.check context ⟨[(name, schema)]⟩ pairs).isSome := by
  refine check_isSome_of_groups (fun group hg values => ?_) pairs
  obtain ⟨key, hk, rfl⟩ := mem_groups.mp hg
  have same : key = name := List.mem_singleton.mp hk
  have own : ([(name, schema)].filter (·.1 == key)).map (·.2) = [schema] := by simp [same]
  have checked (raw : String) : (checkRaw context schema raw).isSome := by
    obtain ⟨value, read⟩ := Option.isSome_iff_exists.mp (readable raw)
    unfold checkRaw
    rw [read]
    exact Schema.check_isSome_of_free context free value
  dsimp only
  rw [own]
  unfold checkGroup
  rw [List.head?_cons]
  dsimp only
  rw [Schema.resolve_of_not_reference free.here]
  have repeated := checkRepeated_isSome (List.forall_mem_singleton.mpr checked) values
  cases schema <;> first | exact repeated | cases plain

/-- One text under the name of a single parameter is accepted when the key suits the policy and, if
it carries no mark, the text is taken. -/
theorem accepting_check_single_iff (context : Context) (name raw : String) {schema : Schema}
    (plain : schema.isList = false) (free : schema.ReferenceFree)
    (readable : ∀ raw, (readOrText context.registry schema raw).isSome) :
    Accepting (Query.check context ⟨[(name, schema)]⟩ [(name, raw)]) ↔
      context.keyPolicy.Allows [name] [name] ∧
      (Key.name name = name → Takes context schema raw) := by
  obtain ⟨verdict, checked⟩ := Option.isSome_iff_exists.mp
    (check_single_isSome name plain free readable [(name, raw)])
  rw [checked, accepting_some, isAccepted_check_iff checked, fits_single_iff free.here plain]
  simp only [mem_textsUnder, List.mem_singleton, Prod.mk.injEq, List.map_cons, List.map_nil]
  refine and_congr_right fun _ => ⟨fun each same => each raw ⟨same, rfl⟩, ?_⟩
  rintro taken text ⟨same, rfl⟩
  exact taken same

theorem readOrText_isSome_of_isScalar {schema : Schema} (scalar : schema.isScalar = true)
    (raw : String) :
    (readOrText context.registry schema raw).isSome := by
  have ends := Schema.read_ne_endless_of_isScalar scalar context.registry raw
  unfold readOrText
  split
  · rfl
  · rfl
  · next endless => exact absurd endless ends

theorem referenceFree_of_isScalar {schema : Schema} (scalar : schema.isScalar = true) :
    schema.ReferenceFree := by
  cases schema <;> first | exact List.forall_mem_singleton.mpr rfl | cases scalar

/-- A parameter that is one of several scalars accepts a text exactly when a parameter with one of
them does that reads in it what the first of them that can read it does. There is a verdict on each
of them, whatever the registry. -/
theorem check_scalarUnion (context : Context) {members : List Schema} (some : members ≠ [])
    (scalars : ∀ schema ∈ members, schema.isScalar = true) (key title sample : Option String)
    (name raw : String) :
    (∃ verdict, Query.check context ⟨[(name, .union members key title sample)]⟩ [(name, raw)] =
        .some verdict ∧
      (verdict.isAccepted = true ↔ ∃ schema ∈ members,
        readOrText context.registry schema raw = .some (readFirst context.registry members raw) ∧
        Accepting (Query.check context ⟨[(name, schema)]⟩ [(name, raw)]))) ∧
    ∀ schema ∈ members, (Query.check context ⟨[(name, schema)]⟩ [(name, raw)]).isSome := by
  have flat : ∀ schema ∈ members, schema.isList = false := fun schema hm => by
    have scalar := scalars schema hm
    cases schema <;> first | rfl | cases scalar
  have free : (Schema.union members key title sample).ReferenceFree :=
    Schema.everywhere_union.mpr ⟨rfl,
      fun schema hm => referenceFree_of_isScalar (scalars schema hm)⟩
  have readable (text : String) :
      (readOrText context.registry (.union members key title sample) text).isSome := by
    rw [readOrText_scalarUnion context.registry scalars]
    rfl
  have each {schema : Schema} (hm : schema ∈ members) :=
    accepting_check_single_iff context name raw (flat schema hm)
      (referenceFree_of_isScalar (scalars schema hm))
        (readOrText_isSome_of_isScalar (scalars schema hm))
  constructor
  · obtain ⟨verdict, checked⟩ := Option.isSome_iff_exists.mp
      (check_single_isSome name rfl free readable [(name, raw)])
    refine ⟨verdict, checked, ?_⟩
    have whole := accepting_check_single_iff context name raw rfl free readable
    rw [checked, accepting_some] at whole
    rw [whole]
    constructor
    · rintro ⟨allowed, taken⟩
      by_cases bare : Key.name name = name
      · obtain ⟨schema, hm, same, own⟩ := (takes_scalarUnion_iff some scalars).mp (taken bare)
        exact ⟨schema, hm, same, (each hm).mpr ⟨allowed, fun _ => own⟩⟩
      · obtain ⟨schema, hm, same⟩ := exists_readOrText_eq context.registry some scalars raw
        exact ⟨schema, hm, same, (each hm).mpr ⟨allowed, fun same => absurd same bare⟩⟩
    · rintro ⟨schema, hm, same, accepted⟩
      obtain ⟨allowed, taken⟩ := (each hm).mp accepted
      exact ⟨allowed, fun bare =>
        (takes_scalarUnion_iff some scalars).mpr ⟨schema, hm, same, taken bare⟩⟩
  · intro schema hm
    exact check_single_isSome name (flat schema hm) (referenceFree_of_isScalar (scalars schema hm))
      (readOrText_isSome_of_isScalar (scalars schema hm)) [(name, raw)]

end Query

/-- A number up to 10, or any text. -/
def smallOrText : Schema :=
  .union [.number ⟨none, some (.ofInt 10)⟩ false none, .text] none none none

/-- The text 7 is read as a number, and the number accepts it. -/
theorem check_scalarUnion_seven :
    ∃ verdict, Query.check (.ofRegistry .initial) ⟨[("k", smallOrText)]⟩ [("k", "7")] =
      some verdict ∧ verdict.isAccepted = true := by
  obtain ⟨⟨verdict, checked, told⟩, _⟩ := @Query.check_scalarUnion (.ofRegistry .initial)
    [.number ⟨none, some (.ofInt 10)⟩ false none, .text] nofun (by decide) none none none "k" "7"
  refine ⟨verdict, checked, told.mpr ⟨_, List.mem_cons_self, ?_, by decide +kernel⟩⟩
  rfl

/-- The text 77 is read as a number that is too great, although any text would do. -/
theorem not_accepting_smallOrText :
    (Context.ofRegistry .initial).keyPolicy = .strict ∧
      (∀ schema ∈ smallOrText.alternatives, schema.isScalar = true) ∧
      (Query.check (.ofRegistry .initial) ⟨[("k", smallOrText)]⟩ [("k", "77")]).map
        Verdict.isAccepted = some false ∧
      ∃ schema ∈ smallOrText.alternatives,
        Accepting (Query.check (.ofRegistry .initial) ⟨[("k", schema)]⟩ [("k", "77")]) :=
  ⟨rfl, by decide, by decide +kernel, .text, List.mem_cons_of_mem _ List.mem_cons_self,
    by decide +kernel⟩

end DataContract
