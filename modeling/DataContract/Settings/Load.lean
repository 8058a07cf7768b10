import DataContract.Json.Value
import DataContract.Settings
import DataContract.Toml.Reader

/-!
# Loading settings

A file whose extension is `json` is read as JSON, any other as TOML. Fields with other names are
ignored.
-/

namespace DataContract

/-- Why a file of settings gives none. -/
inductive LoadError where
  /-- It is missing or not a text. -/
  | io
  /-- It does not follow its format. -/
  | malformed
  deriving DecidableEq

namespace Settings

/-! ## JSON -/

/-- A number of 64 bits without sign, written as an integer. -/
def natOfJson? : Json → Option Nat
  | .number n =>
    if n.isPlain && !n.negative && n.toInt ≤ Number.maxUnsigned then some n.toInt.toNat else none
  | _ => none

def flagOfJson? : Json → Option Bool
  | .boolean b => some b
  | _ => none

/-- An optional number; null stands for none. -/
def boundOfJson? : Json → Option (Option Nat)
  | .null => some none
  | json => (natOfJson? json).map some

/-- Settings from the fields that a JSON text gives. -/
def ofJsonFields? (fields : List (String × Json)) : Option Settings := do
  let flag (name : String) := (fields.lookup name).elim (some false) flagOfJson?
  let bound (name : String) := (fields.lookup name).elim (some none) boundOfJson?
  return ⟨← flag "schema_example_default", ← flag "validate_response_values",
    ← flag "extensible_schema", ← bound "max_test_request_combinations", ← bound "seed"⟩

/-- Settings from a JSON object, or from a list of the fields in order. -/
def ofJsonText? (text : String) : Option Settings := do
  match ← Json.read? text with
  | .object entries => ofJsonFields? (← Json.namedFields? fieldNames entries)
  | .array items =>
    if items.length ≤ fieldNames.length then ofJsonFields? (fieldNames.zip items) else none
  | _ => none

/-! ## TOML -/

def flagOfToml? : Toml → Option Bool
  | .boolean b => some b
  | _ => none

def boundOfToml? : Toml → Option (Option Nat)
  | .integer n => if 0 ≤ n then some (some n.toNat) else none
  | _ => none

/-- Settings from a TOML document. -/
def ofTomlText? (text : String) : Option Settings := do
  let fields ← Toml.read? text
  let flag (name : String) := (Fields.find? name fields).elim (some false) flagOfToml?
  let bound (name : String) := (Fields.find? name fields).elim (some none) boundOfToml?
  return ⟨← flag "schema_example_default", ← flag "validate_response_values",
    ← flag "extensible_schema", ← bound "max_test_request_combinations", ← bound "seed"⟩

/-! ## Files -/

/-- The last part of a file name behind its last dot; a leading dot is part of the name. -/
def extension? (file : String) : Option String :=
  let base := (file.toList.splitOn '/').getLast?.getD []
  match base.reverse.span (· ≠ '.') with
  | (extension, '.' :: stem) =>
    if stem.isEmpty then none else some (String.ofList extension.reverse)
  | _ => none

/-- Settings from the bytes of a file, none when the file is missing. -/
def load (file : String) (content : Option ByteArray) : Except LoadError Settings :=
  match content.bind String.fromUTF8? with
  | none => .error .io
  | some text =>
    let read := if extension? file = some "json" then ofJsonText? text else ofTomlText? text
    match read with
    | some settings => .ok settings
    | none => .error .malformed

end Settings
end DataContract
