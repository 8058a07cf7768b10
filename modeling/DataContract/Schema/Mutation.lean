import DataContract.Derivation.Mutant
import DataContract.Schema.Compatibility

/-!
# Mutants of a schema

`Schema.mutants` puts the parts together: scalars, lists, objects and unions, references followed
where they are reached.
-/

namespace DataContract
namespace Schema

/-- Whether some alternative covers a scalar. -/
def someCovers (context : Context) (members : List Schema) (scalar : Schema) : Option Bool :=
  match members with
  | [] => some false
  | schema :: rest => do
    if (← covers context context schema scalar).isAccepted then return true
    else someCovers context rest scalar

/-- Schemas whose data should be rejected, in so many steps. -/
def mutantsWithin : Nat → Context → Row → Schema → Enumeration (Outcome Schema)
  | 0, _, _, _ => .single (.crash "references without end")
  | fuel + 1, context, row, schema =>
    let negate (child : Context) (schema : Schema) := mutantsWithin fuel child row schema
    let scalars (schemas : List Schema) := Enumeration.ofList (schemas.map Outcome.pure)
    match schema with
    | string range _ => scalars range.mutants
    | number range _ _ => scalars range.mutants
    | boolean _ => scalars [null, numeric, text]
    | null => .nil
    | literal value _ => scalars value.mutants
    | reference name =>
      match context.registry.lookup name with
      | .ok target => negate context target
      | .error cause => .single (.failed cause.failure)
    | object fields title =>
      (mutantMaps (fun _ schema => fieldMutants .full negate context schema)
        (fieldVariants context row) (row.kept fields)).map fun outcome =>
          outcome.map fun fields => object fields title
    | list item title _ =>
      (scalars [null, text, numeric, flag]).append fun _ =>
        match context.enter item true with
        | .ok (some child) => (negate child item).map fun outcome =>
          (outcome.map fun item => list item title none).under "[]"
        | .ok none => .nil
        | .error cause => .single (.failed cause.failure)
    | union members _ _ _ => unionMutants (someCovers context members) negate context members

/-- Schemas whose data should be rejected, one for each negative test. -/
def mutants (context : Context) (row : Row) (schema : Schema) : Enumeration (Outcome Schema) :=
  mutantsWithin (schema.expansionBudget context.registry) context row schema

/-- The mutants of one field of a map. -/
def fieldMutants (strategy : Strategy) (context : Context) (row : Row) (schema : Schema) :
    Enumeration (Outcome Schema) :=
  DataContract.fieldMutants strategy (fun child schema => mutants child row schema) context schema

/-- One field of a map mutated at a time. -/
def mutantMaps (strategy : Strategy) (context : Context) (row : Row) (entries : Fields Schema) :
    Enumeration (Outcome (Fields Schema)) :=
  DataContract.mutantMaps (fun _ schema => fieldMutants strategy context row schema)
    (fieldVariants context row) entries

end Schema
end DataContract
