import DataContract.Query
import DataContract.Schema.Mutation

/-!
# Test data for queries

- `Query.generate`: raw parameters; the items of an array repeat their key.
- `Query.variants`: parameter maps for positive tests, for every combination of optional keys.
- `Query.mutants`: parameter maps with one parameter negated.
-/

namespace DataContract
namespace Query

/-- The raw parameters of a value: one for each item of an array. -/
def rawPairs (name : String) : Value → List (String × String)
  | .array items => items.map fun item => (name, item.literal)
  | value => [(name, value.literal)]

/-- Raw parameters for the declared keys from one on. -/
def generateEntries (context : Context) : Fields Schema → Gen (List (String × String))
  | [] => return []
  | (key, schema) :: rest => do
    let name := Key.name key
    let made ← ((context.protect schema false fun child =>
      schema.generateFor child (some name)).under name).under root
    let pairs := (made.map (rawPairs name)).getD []
    return pairs ++ (← generateEntries context rest)

/-- Raw parameters that fit the declaration. -/
def generate (context : Context) (query : Query) : Gen (List (String × String)) :=
  generateEntries context query.declared

/-- An attempt seen from the root of the query. -/
def rooted {α : Type} : Attempt α → Attempt α
  | .ok content => .ok content
  | .error halt => .error (halt.under root)

/-- Parameter maps for positive tests. -/
def variants (context : Context) (row : Row) (query : Query) :
    Enumeration (Attempt (Fields Schema)) :=
  (combinationVariants (Schema.fieldVariants context row) row query.declared).map rooted

/-- Parameter maps with one parameter negated, for every combination of optional keys. -/
def mutants (context : Context) (row : Row) (query : Query) :
    Enumeration (Outcome (Fields Schema)) :=
  let entries := row.kept query.declared
  (keyCombinations (Fields.names entries) row).flatMap fun keys =>
    (Schema.mutantMaps .textual context row
      (List.filter (fun entry => keys.contains entry.1) entries)).map (.under root)

end Query
end DataContract
