import DataContract.Derivation.Variant

/-!
# Mutants: schemas for negative tests

`Schema.mutants` lists schemas whose data the given schema should reject.

- A scalar gives the other scalars and the values just outside its bounds.
- A list gives the scalars, and lists of the mutants of its item.
- An object is mutated in one field at a time (`mutantMaps`): each mutant of that field stands with
  every choice of variants of the other fields (`toList_mutantMaps`). Which mutants a field has
  depends on the `Strategy`.
- A union gives the mutants of its alternatives, less the scalars that it accepts.
-/

namespace DataContract

/-- How the fields of a map are negated. -/
inductive Strategy where
  /-- Body fields: every mutant, and null unless the field allows it. -/
  | full
  /-- Query parameters, which travel as text: a string has no mutant, null cannot be sent, and a
  list is negated through its items. -/
  | textual
  deriving DecidableEq

/-- Whether an outcome is the null schema. -/
def Outcome.isNullSchema (outcome : Outcome Schema) : Bool := outcome.value?.any Schema.isNull

/-! ## Scalars -/

/-- A string of so many letters. -/
def letters (count : Nat) : Value := .string (String.ofList (List.replicate count 'a'))

/-- Other scalars, and the lengths one past each bound. -/
def LengthRange.mutants (range : LengthRange) : List Schema :=
  [.null, .numeric, .flag] ++
    (match range.least with
      | some least => if 0 < least then [.exactly (letters (least - 1))] else []
      | none => []) ++
    (match range.most with
      | some most => if most < maxTextLength then [.exactly (letters (most + 1))] else []
      | none => [])

/-- Other scalars, and the numbers one past each bound. -/
def NumberRange.mutants (range : NumberRange) : List Schema :=
  let one := Double.ofInt 1
  [.null, .text, .flag] ++
    (range.least.map fun x => Schema.exactly (.number (.ofDouble (x.sub one)))).toList ++
    (range.most.map fun x => Schema.exactly (.number (.ofDouble (x.add one)))).toList

/-- Scalars of another kind than the value; null has none. -/
def Value.mutants : Value → List Schema
  | .null => []
  | .string _ => [.null, .numeric, .flag]
  | .number _ => [.null, .text, .flag]
  | .boolean _ => [.null, .numeric, .text]
  | _ => [.null, .text, .numeric, .flag]

/-! ## Maps -/

/-- The mutants of one field of a map. -/
def fieldMutants (strategy : Strategy) (negate : Context → Schema → Enumeration (Outcome Schema))
    (context : Context) (schema : Schema) : Enumeration (Outcome Schema) :=
  match strategy with
  | .full =>
    match context.enter schema true with
    | .ok (some child) =>
      (negate child schema).closeUnless Outcome.isNullSchema
        (if context.registry.isNullable schema then [] else [.pure .null])
    | .ok none => .nil
    | .error cause => .single (.failed cause.failure)
  | .textual =>
    match context.registry.resolve schema with
    | .string _ _ => .nil
    | .list item _ _ => (negate context item).filter (!·.isNullSchema)
    | resolved => (negate context resolved).filter (!·.isNullSchema)

/-- A choice for every field as one map; fields that are left out are dropped. -/
def mapOfChoice (choice : List (String × Outcome (Option Schema))) : Outcome (Fields Schema) :=
  (Outcome.foldFields (Fields.ofList choice)).map fun fields =>
    List.filterMap (fun entry => entry.2.map (entry.1, ·)) fields

/-- The maps with one candidate for the field at a place and every choice of variants for the other
fields. -/
def mutateAt (positives : String → Schema → Enumeration (Attempt (Option Schema)))
    (entries : Fields Schema) (place : Nat) (candidate : Outcome Schema) :
    Enumeration (Outcome (Fields Schema)) :=
  (Enumeration.product (entries.zipIdx.map fun entry => fun _ =>
    let name := Key.name entry.1.1
    if entry.2 = place then .single (name, candidate.map some)
    else (positives entry.1.1 entry.1.2).map fun choice =>
      (name, (Outcome.ofAttempt choice).under name))).map mapOfChoice

/-- One field mutated at a time, in declared order; before the maps of each mutant stands a mark. -/
def markedMaps (mutants : String → Schema → Enumeration (Outcome Schema))
    (positives : String → Schema → Enumeration (Attempt (Option Schema)))
    (entries : Fields Schema) : Enumeration (Option (Outcome (Fields Schema))) :=
  (Enumeration.ofList entries.zipIdx).flatMap fun entry =>
    (mutants entry.1.1 entry.1.2).flatMap fun candidate =>
      .cons none fun _ =>
        (mutateAt positives entries entry.2 (candidate.under (Key.name entry.1.1))).map some

/-- One field mutated at a time, in declared order. When no field has a single mutant, a lone empty
map takes their place. -/
def mutantMaps (mutants : String → Schema → Enumeration (Outcome Schema))
    (positives : String → Schema → Enumeration (Attempt (Option Schema)))
    (entries : Fields Schema) : Enumeration (Outcome (Fields Schema)) :=
  ((markedMaps mutants positives entries).closeUnless Option.isNone [some (.pure [])]).filterMap id

theorem toList_markedMaps (mutants : String → Schema → Enumeration (Outcome Schema))
    (positives : String → Schema → Enumeration (Attempt (Option Schema)))
    (entries : Fields Schema) :
    (markedMaps mutants positives entries).toList =
      entries.zipIdx.flatMap fun entry =>
        (mutants entry.1.1 entry.1.2).toList.flatMap fun candidate =>
          none :: (mutateAt positives entries entry.2
            (candidate.under (Key.name entry.1.1))).toList.map some := by
  simp [markedMaps]

theorem any_zipIdx (p : String × Schema → Bool) (entries : Fields Schema) (n : Nat) :
    ((entries.zipIdx n).any fun entry => p entry.1) = entries.any p := by
  induction entries generalizing n with
  | nil => rfl
  | cons entry rest ih => simp [List.zipIdx_cons, ih]

theorem any_isNone_markedMaps (mutants : String → Schema → Enumeration (Outcome Schema))
    (positives : String → Schema → Enumeration (Attempt (Option Schema)))
    (entries : Fields Schema) :
    (markedMaps mutants positives entries).toList.any Option.isNone =
      entries.any fun entry => !(mutants entry.1 entry.2).toList.isEmpty := by
  have one (place : (String × Schema) × Nat) :
      ((mutants place.1.1 place.1.2).toList.flatMap fun candidate =>
        none :: (mutateAt positives entries place.2
          (candidate.under (Key.name place.1.1))).toList.map some).any Option.isNone =
        !(mutants place.1.1 place.1.2).toList.isEmpty := by
    cases (mutants place.1.1 place.1.2).toList <;> simp
  rw [toList_markedMaps, List.any_flatMap]
  simp only [one]
  exact any_zipIdx (fun entry => !(mutants entry.1 entry.2).toList.isEmpty) entries 0

/-- Every mutant of every field, with all maps around it; the empty map when there is no mutant. -/
theorem toList_mutantMaps (mutants : String → Schema → Enumeration (Outcome Schema))
    (positives : String → Schema → Enumeration (Attempt (Option Schema)))
    (entries : Fields Schema) :
    (mutantMaps mutants positives entries).toList =
      (entries.zipIdx.flatMap fun entry =>
        (mutants entry.1.1 entry.1.2).toList.flatMap fun candidate =>
          (mutateAt positives entries entry.2 (candidate.under (Key.name entry.1.1))).toList) ++
      if entries.any fun entry => !(mutants entry.1 entry.2).toList.isEmpty then []
      else [.pure []] := by
  rw [mutantMaps, Enumeration.toList_filterMap, Enumeration.toList_closeUnless,
    any_isNone_markedMaps, toList_markedMaps, List.filterMap_append]
  congr 1
  · simp [List.filterMap_flatMap, List.filterMap_map]
  · split <;> rfl

/-! ## Unions -/

/-- Whether an outcome stays among the mutants of a union: a scalar that some alternative covers is
dropped. -/
def rejectedBy (covers : Schema → Option Bool) (candidate : Outcome Schema) :
    Option (Outcome Schema) :=
  match candidate.value? with
  | some schema =>
    if schema.isScalar then
      match covers schema with
      | some true => none
      | some false => some candidate
      | none => some (.crash "references without end")
    else some candidate
  | none => some candidate

/-- The schema by which repeats are told: a scalar or a literal. -/
def repeatKey (candidate : Outcome Schema) : Option Schema :=
  candidate.value?.filter fun schema => schema.isScalar || schema.isLiteral

/-- An attempt at an outcome as an outcome. -/
def Outcome.flatten {α : Type} : Attempt (Outcome α) → Outcome α
  | .ok outcome => outcome
  | .error (.error cause) => .failed cause.failure
  | .error .endless => .crash "references without end"

/-- The mutants of the alternatives without null where it is allowed, without the scalars that the
union covers, and without repeats. -/
def unionMutants (covers : Schema → Option Bool)
    (negate : Context → Schema → Enumeration (Outcome Schema))
    (context : Context) (members : List Schema) : Enumeration (Outcome Schema) :=
  let candidates := (alternativeStream (fun child schema => (negate child schema).map Except.ok)
    context members).settle "Could not get negative tests"
  (((candidates.map Outcome.flatten).filter fun candidate =>
    !(Schema.listsNull members && candidate.isNullSchema)).filterMap (rejectedBy covers)).distinct
      repeatKey Schema.sameScalar []

end DataContract
