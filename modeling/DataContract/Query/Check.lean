import DataContract.Query
import DataContract.Schema.Check
import DataContract.Schema.Reading

/-!
# Checking a query

`Query.check` gives the verdict on raw parameters.

- The values of a key that is declared as a list are checked as one array.
- Other declarations of a key are gone through from the last one to the first. Each has to accept
  one of the values that are left, and those that it accepts are settled; a value that is never
  settled reports every failure it met.
-/

namespace DataContract

/-- Texts without repeats, in order of first occurrence. -/
def distinctNames : List String → List String → List String
  | _, [] => []
  | seen, name :: rest =>
    if seen.contains name then distinctNames seen rest
    else name :: distinctNames (name :: seen) rest

namespace Query

/-- The declarations of each key, keys in order of first declaration. -/
def groups (query : Query) : List (String × List Schema) :=
  (distinctNames [] (query.pairs.map (·.1))).map fun key =>
    (key, (query.pairs.filter (·.1 == key)).map (·.2))

/-- A raw value read by a schema; what it cannot read stays a text. -/
def readOrText (registry : Registry) (schema : Schema) (raw : String) : Option Value :=
  match schema.read registry raw with
  | .ok value => some value
  | .error (.error _) => some (.string raw)
  | .error .endless => none

/-- The verdict of one declaration on a raw value. -/
def checkRaw (context : Context) (schema : Schema) (raw : String) : Option Verdict := do
  schema.check context (← readOrText context.registry schema raw)

/-- Raw values read one by one. -/
def readAll (registry : Registry) (schema : Schema) : List String → Option (List Value)
  | [] => some []
  | raw :: rest => do return (← readOrText registry schema raw) :: (← readAll registry schema rest)

/-- The verdict on all values of a key that is declared as a list. -/
def checkAsList (context : Context) (schema item : Schema) (values : List String) :
    Option Verdict := do
  schema.check context (.array (← readAll context.registry item values))

/-- A raw value that no declaration has accepted so far, with the failures it met. -/
structure Unsettled where
  raw : String
  history : List Failure

/-- The verdicts of one declaration on the values that are left. -/
def attempts (context : Context) (schema : Schema) :
    List Unsettled → Option (List (Unsettled × Verdict))
  | [] => some []
  | value :: rest => do
    return (value, ← checkRaw context schema value.raw) :: (← attempts context schema rest)

/-- A value stays unsettled when it was rejected, and remembers why. -/
def stillUnsettled : Unsettled × Verdict → Option Unsettled
  | (_, .accepted _) => none
  | (value, .rejected failure) => some ⟨value.raw, value.history ++ [failure]⟩

/-- Goes through declarations. One that accepts nothing fails with all its verdicts and settles
nothing. -/
def settleValues (context : Context) :
    List Schema → List Unsettled → Option (List Verdict × List Unsettled)
  | [], values => some ([], values)
  | schema :: rest, values => do
    let tried ← attempts context schema values
    if tried.any fun attempt => attempt.2.isAccepted then
      let (verdicts, left) ← settleValues context rest (tried.filterMap stillUnsettled)
      return (.ok :: verdicts, left)
    else
      let (verdicts, left) ← settleValues context rest values
      return (.all (tried.map (·.2)) :: verdicts, left)

/-- The verdict on the values of a key with these declarations. -/
def checkRepeated (context : Context) (schemas : List Schema) (values : List String) :
    Option Verdict := do
  let (verdicts, left) ← settleValues context schemas.reverse (values.map (⟨·, []⟩))
  return .all (.all verdicts :: (left.flatMap (·.history)).map .rejected)

/-- The verdict on the values of one key. -/
def checkGroup (context : Context) (schemas : List Schema) (values : List String) :
    Option Verdict :=
  match schemas.head? with
  | some first =>
    match context.registry.resolve first with
    | .list item _ _ => checkAsList context first item values
    | _ => checkRepeated context schemas values
  | none => checkRepeated context schemas values

/-- The verdicts on the declared keys. -/
def checkGroups (context : Context) (raw : List (String × String)) :
    List (String × List Schema) → Option (List Verdict)
  | [] => some []
  | (key, schemas) :: rest => do
    let name := Key.name key
    let verdict ← checkGroup context schemas ((raw.filter (·.1 == name)).map (·.2))
    return verdict.under name :: (← checkGroups context raw rest)

/-- The verdict on raw parameters, none when references lead on without end. -/
def check (context : Context) (query : Query) (raw : List (String × String)) : Option Verdict := do
  let problems :=
    context.keyProblems (Fields.names query.declared) (distinctNames [] (raw.map (·.1)))
  let verdicts ← checkGroups context raw query.groups
  return (Verdict.all (problems.map (fun problem =>
    .rejected (problem.failure "query param" context.phrasing)) ++ verdicts)).under root

end Query
end DataContract
