import DataContract.Context
import DataContract.Text.Blank

/-!
# Checking data

`Schema.check` gives the verdict on a value. Data that do not fit are rejected with a failure at the
place where they differ; there is no verdict only where references lead back to themselves without
passing a field or an item.

- An object reports its key problems, then the failures of the fields that are present.
- A list reports the failures of its items.
- A union is content with any alternative. When none accepts, it reports one failure if null or only
  literals are allowed, and otherwise the failure of every alternative under a marker.
-/

namespace DataContract

/-- The number of characters is in the range. -/
def LengthRange.check (phrasing : Phrasing) (range : LengthRange) (text : String) : Verdict :=
  let refuse (expected : String) :=
    Verdict.rejected (phrasing.valueMismatch expected (some (.string text)))
  let length := text.toList.length
  if range.least.any (length < ·) then
    refuse ("string with minLength " ++ ((range.least.map Nat.repr).getD ""))
  else if range.most.any (· < length) then
    refuse ("string with maxLength " ++ ((range.most.map Nat.repr).getD ""))
  else .ok

/-- A bound in messages. -/
def Double.bound (x : Double) : String := (Number.ofDouble x).text

/-- The number is in the range; integers are compared as doubles. -/
def NumberRange.check (phrasing : Phrasing) (range : NumberRange) (n : Number) : Verdict :=
  let refuse (expected : String) :=
    Verdict.rejected (phrasing.valueMismatch expected (some (.number n)))
  if range.least.any (n.toDouble < ·) then
    refuse ("number >= " ++ ((range.least.map Double.bound).getD ""))
  else if range.most.any (· < n.toDouble) then
    refuse ("number <= " ++ ((range.most.map Double.bound).getD ""))
  else .ok

/-- The marker of an alternative in the path of a failure: its name, or its place. -/
def alternativeMarker (schema : Schema) (place : Nat) : String :=
  match schema.title?.filter fun title => !(trimBlank title.toList).isEmpty && title != "()" with
  | some title => "(~~~" ++ Token.bare title ++ " object)"
  | none => "(~~~object " ++ place.repr ++ ")"

/-- The failures of the alternatives, each under its marker. -/
def markFailures (alternatives : List Schema) (failures : List Failure) : List Failure :=
  ((failures.zip alternatives).zipIdx 1).map fun ((failure, schema), place) =>
    failure.under (alternativeMarker schema place)

/-- One failure for a union: that of the other alternative in a nullable pair, or that of a single
alternative, or a mismatch of the whole. -/
def unionFailure (phrasing : Phrasing) (whole : Schema) (alternatives : List Schema)
    (failures : List Failure) (value : Value) : Failure :=
  let own :=
    if Schema.isNullablePair alternatives then
      match (failures.zip alternatives).find? fun pair => !pair.2.isEmptyMarker with
      | some (failure, _) => [failure]
      | none => failures
    else failures
  match own with
  | [failure] => failure
  | _ => phrasing.valueMismatch whole.typeName (some value)

/-- The variables of the first alternative that accepts, or the failures of all of them. -/
def firstAccepted (check : Schema → Option Verdict) :
    List Schema → Option (Except (List Failure) (Fields String))
  | [] => some (.error [])
  | schema :: rest => do
    match ← check schema with
    | .accepted captured => return .ok captured
    | .rejected failure =>
      match ← firstAccepted check rest with
      | .ok captured => return .ok captured
      | .error failures => return .error (failure :: failures)

/-- The verdicts on the fields that are present, in declared order. -/
def checkFields (check : Schema → Value → Option Verdict) (entries : Fields Value) :
    List (String × Schema) → Option (List Verdict)
  | [] => some []
  | (key, schema) :: rest => do
    let own ← match Fields.find? (Key.name key) entries with
      | some value => (check schema value).map fun verdict => [verdict.under (Key.name key)]
      | none => some []
    return own ++ (← checkFields check entries rest)

/-- The verdicts on the items from a place on. -/
def checkItems (check : Value → Option Verdict) (place : Nat) : List Value → Option (List Verdict)
  | [] => some []
  | item :: rest => do
    let verdict ← check item
    return verdict.under ("[" ++ place.repr ++ "]") :: (← checkItems check (place + 1) rest)

namespace Schema

/-- The verdict on a value, in so many steps. -/
def checkWithin (context : Context) : Nat → Schema → Value → Option Verdict
  | 0, _, _ => none
  | fuel + 1, schema, value =>
    let mismatch (expected : String) :=
      some (Verdict.rejected (context.phrasing.valueMismatch expected (some value)))
    match schema with
    | string range _ =>
      match value with
      | .string text => some (range.check context.phrasing text)
      | _ => mismatch "string"
    | number range _ _ =>
      match value with
      | .number n => some (range.check context.phrasing n)
      | _ => mismatch "number"
    | boolean _ =>
      match value with
      | .boolean _ => some .ok
      | _ => mismatch "boolean"
    | null => if value.isNull then some .ok else mismatch "null"
    | literal expected _ => if expected.sameLiteral value then some .ok else mismatch expected.shown
    | reference name =>
      match context.registry.lookup name with
      | .ok target => checkWithin context fuel target value
      | .error cause => some (.rejected cause.failure)
    | object fields _ =>
      match value with
      | .object entries => do
        let problems := context.keyProblems (Fields.names fields) (Fields.names entries)
        let verdicts ← checkFields (checkWithin context fuel) entries fields
        return .all (problems.map (fun problem =>
          .rejected (problem.failure "key" context.phrasing)) ++ verdicts)
      | _ => mismatch "json object"
    | list item _ _ =>
      match value with
      | .array items => (checkItems (checkWithin context fuel item) 0 items).map .all
      | _ => mismatch ("array of " ++ item.typeName)
    | union members key title sample => do
      match ← firstAccepted (checkWithin context fuel · value) members with
      | .ok captured => return .accepted captured
      | .error failures =>
        let resolved := members.map context.registry.resolve
        if resolved.any isNull || resolved.all isLiteral then
          return .rejected (unionFailure context.phrasing (union members key title sample) members
            failures value)
        else return .rejected (.all (markFailures members failures))

/-- Steps enough to pass every node once at every node of the value. -/
def checkBudget (context : Context) (schema : Schema) (value : Value) : Nat :=
  (value.size + 1) * (schema.size + context.registry.size + 1)

/-- The verdict on a value, none when references lead on without end. -/
def check (context : Context) (schema : Schema) (value : Value) : Option Verdict :=
  checkWithin context (schema.checkBudget context value) schema value

/-- Whether a value is accepted. -/
def accepts (context : Context) (schema : Schema) (value : Value) : Option Bool :=
  (schema.check context value).map Verdict.isAccepted

end Schema
end DataContract
