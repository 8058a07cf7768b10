import DataContract.Schema.Check
import DataContract.Schema.Reading

/-!
# Examples in schemas

The author of a schema may give a literal as an example. Where examples are preferred, the literal
is read by the schema and has to fit it.
-/

namespace DataContract
namespace Schema

/-- The value of an example that fits a schema; none without an example or where values are
synthesized. -/
def exampleValue (context : Context) (sample : Option String) (schema : Schema) :
    Attempt (Option Value) :=
  match sample, context.mode with
  | some sample, .preferExamples => do
    let value ← schema.read context.registry sample
    match ← Attempt.ofOption (schema.check context value) with
    | .accepted _ => return some value
    | .rejected failure =>
      throw (.error (.failed (.because
        ("Example \"" ++ sample ++ "\" does not match " ++ schema.typeName ++ " schema") failure)))
  | _, _ => return none

/-- The value of an example in the first alternative that it fits, or the failures of all. -/
def firstExample (context : Context) (sample : String) :
    List Schema → Attempt (Except (List Failure) (Option Value))
  | [] => .ok (.error [])
  | schema :: rest =>
    match exampleValue context (some sample) schema with
    | .ok value => .ok (.ok value)
    | .error .endless => .error .endless
    | .error (.error cause) => do
      match ← firstExample context sample rest with
      | .ok value => return .ok value
      | .error failures => return .error (cause.failure :: failures)

/-- The value of an example that fits one of the alternatives. -/
def exampleOfAny (context : Context) (sample : Option String) (alternatives : List Schema) :
    Attempt (Option Value) :=
  match sample, context.mode with
  | some sample, .preferExamples => do
    match ← firstExample context sample alternatives with
    | .ok value => return value
    | .error failures =>
      throw (.error (.aggregate
        ("Example \"" ++ sample ++ "\" does not match any of the schema alternatives") failures))
  | _, _ => return none

/-- The value of the example that a schema has. That of a union is read by its alternatives. -/
def ownExample (context : Context) : Schema → Attempt (Option Value)
  | union members _ _ sample => exampleOfAny context sample members
  | schema => exampleValue context schema.sample? schema

end Schema
end DataContract
