import DataContract.Combination
import DataContract.Derivation.Settle
import DataContract.Schema.Generation

/-!
# Variants: schemas for positive tests

`Schema.variants` lists more specific schemas, one for each positive test.

- An object gives, for every combination of its optional keys, every choice of variants of its
  fields. The context may bound their number.
- A list gives a list of every variant of its item, and the empty list where the item would be
  re-entered.
- A union gives the variants of every alternative, null last.
- A literal that the row binds to a field takes the place of the variants of that field.
-/

namespace DataContract

/-- A literal of a row as a schema: it is read by the schema of the field and has to fit it. -/
def rowLiteral (context : Context) (literal : String) (schema : Schema) : Attempt Schema := do
  let value ← schema.read context.registry literal
  match ← Attempt.ofOption (schema.check context value) with
  | .accepted _ => return .exactly value
  | .rejected failure =>
    throw (.error (.failed (.because
      ("Example \"" ++ literal ++ "\" does not match " ++ schema.typeName) failure)))

/-- The variant of an optional field: a cycle means that the field is left out. -/
def absorbCycle (optional : Bool) : Attempt Schema → Attempt (Option Schema)
  | .ok schema => .ok (some schema)
  | .error (.error (.cycle stack)) => if optional then .ok none else .error (.error (.cycle stack))
  | .error halt => .error halt

/-- The variants of one field; none means that the field is left out. A literal of the row is used
as it is, a token among them as a reference. -/
def fieldVariants (derive : Context → Schema → Enumeration (Attempt Schema)) (context : Context)
    (row : Row) (key : String) (schema : Schema) : Enumeration (Attempt (Option Schema)) :=
  match row.literal? (Key.name key) with
  | some literal =>
    .single (if Token.isToken literal then .ok (some (.named literal))
      else (rowLiteral context literal schema).map some)
  | none =>
    let optional := Key.isOptional key
    match context.enter schema optional with
    | .ok (some child) => (derive child schema).map (absorbCycle optional)
    | .ok none => .single (.ok none)
    | .error cause => .single (.error (.error cause))

/-- A choice of variants as fields: keys lose their mark, and the first error counts. -/
def assembleFields :
    List (String × Attempt (Option Schema)) → Fields Schema → Attempt (Fields Schema)
  | [], done => .ok done
  | (key, choice) :: rest, done =>
    match choice with
    | .ok (some schema) => assembleFields rest (Fields.put (Key.name key) schema done)
    | .ok none => assembleFields rest done
    | .error halt => .error (halt.under (Key.name key))

/-- A choice of variants as fields, unless references without end are among them. -/
def fieldsOfChoice (choice : List (String × Attempt (Option Schema))) : Attempt (Fields Schema) :=
  if choice.any fun part => match part.2 with | .error .endless => true | _ => false then
    .error .endless
  else assembleFields choice []

/-- Every choice of one variant for each field. -/
def fieldsVariants (positives : String → Schema → Enumeration (Attempt (Option Schema)))
    (entries : Fields Schema) : Enumeration (Attempt (Fields Schema)) :=
  (Enumeration.product (entries.map fun entry => fun _ =>
    (positives entry.1 entry.2).map (entry.1, ·))).map fieldsOfChoice

/-- The choices of variants for every combination of optional keys. -/
def combinationVariants (positives : String → Schema → Enumeration (Attempt (Option Schema)))
    (row : Row) (entries : Fields Schema) : Enumeration (Attempt (Fields Schema)) :=
  let entries := row.kept entries
  (keyCombinations (Fields.names entries) row).flatMap fun keys =>
    fieldsVariants positives (List.filter (fun entry => keys.contains entry.1) entries)

/-- The first items, as many as the bound says. -/
def Enumeration.capped {α : Type} (bound : Option Nat) (items : Enumeration α) : Enumeration α :=
  match bound with
  | some n => items.take n
  | none => items

/-- The schema itself, or its example where examples are preferred. -/
def exampleOrSelf (context : Context) (schema : Schema) : Attempt Schema :=
  (Schema.exampleValue context schema.sample? schema).map fun example? =>
    (example?.map Schema.exactly).getD schema

/-- The empty list as a schema. -/
def Schema.emptyList : Schema := .exactly (.array [])

/-- A list of a variant; a cycle means that the list stays empty. -/
def listVariant (title : Option String) : Attempt Schema → Attempt Schema
  | .ok item => .ok (.list item title none)
  | .error (.error (.cycle _)) => .ok .emptyList
  | .error halt => .error (halt.under "[]")

/-- What each alternative of a union gives under cycle prevention, null last. An alternative that is
re-entered gives nothing where null can take its place. -/
def alternativeStream {α : Type} (derive : Context → Schema → Enumeration (Attempt α))
    (context : Context) (members : List Schema) : Enumeration (Attempt α) :=
  (Enumeration.ofList (Schema.nullsLast members)).flatMap fun schema =>
    match context.enter schema (Schema.listsNull members) with
    | .ok (some child) => derive child schema
    | .ok none => .nil
    | .error cause => .single (.error (.error cause))

/-- Whether an attempt ended in a cycle. -/
def Attempt.isCycle {α : Type} : Attempt α → Bool
  | .error (.error (.cycle _)) => true
  | _ => false

/-- The variants of the alternatives before errors are settled; where null is an alternative, cycle
errors count for nothing. -/
def unionStream (derive : Context → Schema → Enumeration (Attempt Schema)) (context : Context)
    (members : List Schema) : Enumeration (Attempt Schema) :=
  (alternativeStream derive context members).filter fun item =>
    !(Schema.listsNull members && item.isCycle)

namespace Schema

/-- More specific schemas, in so many steps. -/
def variantsWithin : Nat → Context → Row → Schema → Enumeration (Attempt Schema)
  | 0, _, _, _ => .single (.error .endless)
  | fuel + 1, context, row, schema =>
    let derive (child : Context) (schema : Schema) := variantsWithin fuel child row schema
    match schema with
    | null => .single (.ok null)
    | literal value title => .single (.ok (literal value title))
    | reference name =>
      match context.registry.lookup name with
      | .ok target => derive context target
      | .error cause => .single (.error (.error cause))
    | object fields title =>
      ((combinationVariants (fieldVariants derive context row) row fields).map fun choice =>
        choice.map fun fields => object fields title).capped context.maxCombinations
    | list item title sample =>
      if context.mode = .preferExamples ∧ sample.isSome then
        .single (exampleOrSelf context (list item title sample))
      else
        match context.enter item true with
        | .ok (some child) => (derive child item).map (listVariant title)
        | .ok none => .single (.ok emptyList)
        | .error cause => .single (.error (.error cause))
    | union members _ _ sample =>
      match exampleOfAny context sample members with
      | .ok (some value) => .single (.ok (exactly value))
      | .error halt => .single (.error halt)
      | .ok none => (unionStream derive context members).settle "Could not generate new tests"
    | schema => .single (exampleOrSelf context schema)

/-- More specific schemas, one for each positive test. -/
def variants (context : Context) (row : Row) (schema : Schema) : Enumeration (Attempt Schema) :=
  variantsWithin (schema.expansionBudget context.registry) context row schema

/-- The variants of one field. -/
def fieldVariants (context : Context) (row : Row) (key : String) (schema : Schema) :
    Enumeration (Attempt (Option Schema)) :=
  DataContract.fieldVariants (fun child schema => variants child row schema) context row key schema

end Schema
end DataContract
