import DataContract.Attempt
import DataContract.Json.Value
import DataContract.Registry
import DataContract.Text.Blank

/-!
# Reading raw literals

A raw literal comes from a query, a header or an example, and is read with the type that a schema
gives it.

- `readNumber?`, `readBoolean?`, `readNull?`: scalars; blanks around them do not count.
- `Schema.read`: a literal read by a schema. A union takes the first alternative that can read it,
  those that are null last.
-/

namespace DataContract

/-- A number: an integer where it fits 64 bits with a sign, otherwise a double. -/
def readNumber? (literal : String) : Option Value := do
  let numeral ← Numeral.ofLiteral? (trimBlank literal.toList)
  let n := numeral.toInt
  if numeral.isPlain && Number.minSigned ≤ n && n ≤ Number.maxSigned then return .integer n
  else return .number (.double (← numeral.toDecimal.toDouble?))

/-- A boolean in letters of either case. -/
def readBoolean? (literal : String) : Option Value :=
  let letters := (trimBlank literal.toList).map Char.toLower
  if letters = "true".toList then some (.boolean true)
  else if letters = "false".toList then some (.boolean false)
  else none

/-- Null, which may also be left blank. -/
def readNull? (literal : String) : Option Value :=
  let letters := trimBlank literal.toList
  if letters = [] ∨ letters = "null".toList then some .null else none

/-- What was read, or the error that names the type expected. -/
def Attempt.ofReading (literal expected : String) : Option Value → Attempt Value
  | some value => .ok value
  | none => .error (.error (.unreadable literal [expected]))

/-- A literal read with the type of a value. -/
def Value.readAlike (model : Value) (literal : String) : Attempt Value :=
  match model with
  | .string _ => .ok (.string literal)
  | .number _ => .ofReading literal "number" (readNumber? literal)
  | .boolean _ => .ofReading literal "boolean" (readBoolean? literal)
  | .null => .ofReading literal "null" (readNull? literal)
  | model => .ofReading literal model.kindWord (Value.ofJsonText? literal)

/-- The first reading that works; none when every one ends in an error. -/
def firstReading (read : Schema → Attempt Value) : List Schema → Attempt (Option Value)
  | [] => .ok none
  | schema :: rest =>
    match read schema with
    | .ok value => .ok (some value)
    | .error (.error _) => firstReading read rest
    | .error .endless => .error .endless

namespace Schema

/-- A literal read by a schema, in so many steps. -/
def readWithin (registry : Registry) : Nat → Schema → String → Attempt Value
  | 0, _, _ => .error .endless
  | fuel + 1, schema, raw =>
    match schema with
    | string _ _ => .ok (.string raw)
    | number _ _ _ => .ofReading raw "number" (readNumber? raw)
    | boolean _ => .ofReading raw "boolean" (readBoolean? raw)
    | null => .ofReading raw "null" (readNull? raw)
    | literal value _ => value.readAlike raw
    | reference name => do
      readWithin registry fuel (← Attempt.ofExcept (registry.lookup name)) raw
    | object fields title =>
      .ofReading raw (object fields title).typeName
        ((Value.ofJsonText? raw).filter fun value => value.asObject?.isSome)
    | list item title sample =>
      .ofReading raw (list item title sample).typeName
        ((Value.ofJsonText? raw).filter fun value => value.asArray?.isSome)
    | union members _ _ _ => do
      match ← firstReading (readWithin registry fuel · raw)
        (nullsLast (members.map registry.resolve)) with
      | some value => return value
      | none => throw (.error (.unreadable raw (members.map typeName)))

/-- Steps enough to pass every node once. -/
def chainBudget (registry : Registry) (schema : Schema) : Nat := schema.size + registry.size + 1

/-- A literal read by a schema. -/
def read (registry : Registry) (schema : Schema) (raw : String) : Attempt Value :=
  readWithin registry (schema.chainBudget registry) schema raw

end Schema
end DataContract
