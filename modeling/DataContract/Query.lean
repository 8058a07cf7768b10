import DataContract.Schema

/-!
# Query parameters

A query is declared as keys with schemas. A key may be declared more than once; a trailing `?` marks
it optional.

- `Query.ofTemplate`: the declaration that a template such as `id=(number)&sort=asc` gives.
- `Query.display`: the template of a declaration.
- `Query.declared`: one schema for each key, the last one declared.
-/

namespace DataContract

/-- Declared query parameters in order. -/
structure Query where
  pairs : List (String × Schema)

namespace Query

/-- The segment that all failures of a query stand under. -/
def root : String := "QUERY-PARAMS"

/-- One schema for each key: a later declaration replaces an earlier one at its place. -/
def declared (query : Query) : Fields Schema := Fields.ofList query.pairs

/-- A text cut at its first `=`; a text without one has an empty second part. -/
def cutPair (text : List Char) : List Char × List Char :=
  (text.takeWhile (· ≠ '='), (text.dropWhile (· ≠ '=')).drop 1)

/-- The names and values of a query text: leading `?` and empty parameters do not count. -/
def splitPairs (text : String) : List (String × String) :=
  (((text.toList.dropWhile (· = '?')).splitOn '&').filter (· ≠ [])).map fun pair =>
    let (name, value) := cutPair pair
    (String.ofList name, String.ofList value)

/-- A value of a template: a token is a reference, anything else an exact text. -/
def templateSchema (value : String) : Schema :=
  if Token.isToken value then .named value else .exactly (.string value)

/-- The declaration that a template gives. Every parameter of a template is optional, and so is
every parameter for an API key, which may hold any text and comes first. -/
def ofTemplate (template : String) (apiKeys : List String) : Query :=
  ⟨Fields.ofList (apiKeys.map (fun name => (Key.optional name, Schema.text)) ++
    (splitPairs template).map fun pair => (Key.optional pair.1, templateSchema pair.2))⟩

/-- The template of a declaration. -/
def display (query : Query) : String :=
  match query.declared with
  | [] => ""
  | declared => "?" ++ "&".intercalate
      (declared.map fun entry => Key.name entry.1 ++ "=" ++ entry.2.display)

end Query
end DataContract
