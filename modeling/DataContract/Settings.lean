import DataContract.Value.Text

/-!
# Settings

The flags that shape how contracts are checked and how test data are made. Reading a file of
settings is in `Settings.Load`.
-/

namespace DataContract

/-- Flags of a contract check. -/
structure Settings where
  /-- Examples in a schema are the values that are generated. -/
  preferExamples : Bool
  /-- Values of a response are compared with the examples of its schema. -/
  checkResponseValues : Bool
  /-- Keys that the schema does not declare are tolerated. -/
  extensible : Bool
  /-- The most positive combinations of an object, without a bound when absent. -/
  maxCombinations : Option Nat
  /-- The seed of reproducible generation. -/
  seed : Option Nat
  deriving DecidableEq

namespace Settings

/-- Every flag off. -/
def initial : Settings := ⟨false, false, false, none, none⟩

instance : Inhabited Settings := ⟨initial⟩

/-- The written names of the flags, in the order in which a list gives them. -/
def fieldNames : List String :=
  ["schema_example_default", "validate_response_values", "extensible_schema",
    "max_test_request_combinations", "seed"]

/-- The settings as data; a bound or seed that is absent is left out. -/
def toValue (settings : Settings) : Value :=
  let entry (name : String) (n : Option Nat) := (n.map fun n => (name, Value.integer n)).toList
  .object ([("schema_example_default", .boolean settings.preferExamples),
    ("validate_response_values", .boolean settings.checkResponseValues),
    ("extensible_schema", .boolean settings.extensible)] ++
    entry "max_test_request_combinations" settings.maxCombinations ++ entry "seed" settings.seed)

/-- A file of settings with every flag explained. -/
def sample : String := "\n".intercalate [
  "# contractfuzz configuration",
  "",
  "# Prefer schema examples when generating values",
  "schema_example_default = false",
  "",
  "# Validate response values against examples, not just types",
  "validate_response_values = false",
  "",
  "# Allow keys the schema does not declare",
  "extensible_schema = false",
  "",
  "# Limit positive combinations per object",
  "# max_test_request_combinations = 64",
  "",
  "# Reproducible generation",
  "# seed = 42",
  ""]

end Settings
end DataContract
