import DataContract.Schema
import DataContract.SchemaError

/-!
# Registry

Named schemas, which references are looked up in. Names are stored as tokens, and the four scalar
names are always present.

- `Registry.find?`, `Registry.lookup`: the schema under a name.
- `Registry.resolve`: references followed to the first schema that is none.
-/

namespace DataContract

/-- Named schemas in order of registration. -/
structure Registry where
  entries : Fields Schema

namespace Registry

/-- The registry of the scalar names. -/
def initial : Registry :=
  ⟨[("(string)", .text), ("(number)", .numeric), ("(boolean)", .flag), ("(null)", .null)]⟩

instance : Inhabited Registry := ⟨initial⟩

/-- The registry with a schema under a name; an earlier schema of that name is replaced. -/
def register (name : String) (schema : Schema) (registry : Registry) : Registry :=
  ⟨Fields.put (Token.ofName name) schema registry.entries⟩

/-- The schema under a name, with or without its brackets. -/
def find? (name : String) (registry : Registry) : Option Schema :=
  Fields.find? (Token.ofName name) registry.entries

/-- The schema under a name, or the error that there is none. -/
def lookup (name : String) (registry : Registry) : Except SchemaError Schema :=
  match registry.find? name with
  | some schema => .ok schema
  | none => .error (.unknown (Token.ofName name))

theorem find?_register (name other : String) (schema : Schema) (registry : Registry) :
    (registry.register name schema).find? other =
      if Token.ofName other = Token.ofName name then some schema else registry.find? other :=
  Fields.find?_put _ _ _ _

/-- Number of nodes of all registered schemas. -/
def size (registry : Registry) : Nat := Schema.sizeOfFields registry.entries

/-- Follows references for so many steps; stops at a name that is unknown or was followed before. -/
def resolveWithin (registry : Registry) : Nat → List String → Schema → Schema
  | 0, _, schema => schema
  | fuel + 1, seen, .reference name =>
    if seen.contains name then .reference name
    else
      match registry.find? name with
      | some schema => resolveWithin registry fuel (name :: seen) schema
      | none => .reference name
  | _ + 1, _, schema => schema

/-- References followed to the first schema that is none. At most one step more than there are
names is taken. -/
def resolve (registry : Registry) (schema : Schema) : Schema :=
  resolveWithin registry (registry.entries.length + 1) [] schema

/-- Whether one of a union's alternatives, or of the unions among them, is null or refers to it. -/
def reachesNull (registry : Registry) (members : List Schema) : Bool :=
  (Schema.alternativesOfAll members).any fun schema => (registry.resolve schema).isNull

/-- Null, or a union with a null alternative, after references are followed. -/
def isNullable (registry : Registry) (schema : Schema) : Bool :=
  match registry.resolve schema with
  | .null => true
  | .union members _ _ _ => registry.reachesNull members
  | _ => false

/-- The alternatives that a schema stands for, its own references followed. -/
def alternatives (registry : Registry) (schema : Schema) : List Schema :=
  match registry.resolve schema with
  | .union members _ _ _ => Schema.alternativesOfAll members
  | _ => [schema]

end Registry
end DataContract
