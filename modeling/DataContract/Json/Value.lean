import DataContract.Json
import DataContract.Report

/-!
# Data from JSON

- `Value.ofJsonText?`: a JSON text as data, keys in ascending order; containers deeper than 127 and
  numbers beyond the range of a double are refused.
- `Report.ofJsonText?`: a report; a record may be written as an object or as the list of its fields.
-/

namespace DataContract

/-- The number of a JSON numeral: an integer when it is written as one and fits 64 bits. Minus zero
is a double. -/
def Number.ofNumeral? (n : Numeral) : Option Number :=
  let value := n.toInt
  if n.isPlain && Number.minSigned ≤ value && value ≤ Number.maxUnsigned &&
      !(n.negative && value == 0) then
    some (.integer value)
  else n.toDecimal.toDouble?.map .double

namespace Value

mutual

/-- The data of a JSON tree with at most `depth` containers inside each other. -/
def ofJson? (depth : Nat) : Json → Option Value
  | .null => some null
  | .boolean b => some (boolean b)
  | .number n => (Number.ofNumeral? n).map number
  | .string s => s.map string
  | .array items =>
    match depth with
    | 0 => none
    | depth + 1 => (ofItems? depth items).map array
  | .object entries =>
    match depth with
    | 0 => none
    | depth + 1 => (ofEntries? depth entries).map fun pairs =>
      object (Fields.sorted (Fields.ofList pairs))

def ofItems? (depth : Nat) : List Json → Option (List Value)
  | [] => some []
  | item :: rest => do
    let value ← ofJson? depth item
    let values ← ofItems? depth rest
    return value :: values

def ofEntries? (depth : Nat) : List (Option String × Json) → Option (List (String × Value))
  | [] => some []
  | (key, item) :: rest => do
    let name ← key
    let value ← ofJson? depth item
    let values ← ofEntries? depth rest
    return (name, value) :: values

end

/-- Containers may stand inside each other this deep. -/
def maxDepth : Nat := 127

/-- A JSON text as data. -/
def ofJsonText? (text : String) : Option Value := do
  ofJson? maxDepth (← Json.read? text)

end Value

namespace Json

def asString? : Json → Option String
  | string s => s
  | _ => none

/-- A list of texts. -/
def asStrings? : Json → Option (List String)
  | array items => items.mapM asString?
  | _ => none

end Json

namespace Report

/-- An entry written as an object or as the list of its two fields. The path may be left out of the
object. -/
def Entry.ofJson? : Json → Option Entry
  | .object entries => do
    let fields ← Json.namedFields? ["path", "messages"] entries
    let path ← match fields.lookup "path" with
      | some json => json.asString?
      | none => some ""
    return ⟨path, ← (← fields.lookup "messages").asStrings?⟩
  | .array [path, messages] => do return ⟨← path.asString?, ← messages.asStrings?⟩
  | _ => none

/-- The entries of a report. -/
def entriesOfJson? : Json → Option Report
  | .array items => (items.mapM Entry.ofJson?).map Report.mk
  | _ => none

/-- A report from its JSON text. -/
def ofJsonText? (text : String) : Option Report := do
  match ← Json.read? text with
  | .object entries => entriesOfJson? (← (← Json.namedFields? ["entries"] entries).lookup "entries")
  | .array [entries] => entriesOfJson? entries
  | _ => none

end Report
end DataContract
