import DataContract.Report

/-!
# Schema errors

Raised when a schema cannot yield data; data that does not fit is never an error.
-/

namespace DataContract

/-- Why a schema yields nothing. -/
inductive SchemaError where
  /-- Failures, reported as such. -/
  | failed (failure : Failure)
  /-- A literal that none of the named types can read. -/
  | unreadable (literal : String) (expected : List String)
  /-- A name that re-entered itself with nothing to end the recursion. -/
  | cycle (stack : List String)
  /-- A name that is not registered. -/
  | unknown (name : String)
  /-- A contradictory or otherwise unusable schema. -/
  | invalid (reason : String)

namespace SchemaError

/-- Failures under one headline. -/
def aggregate (headline : String) (failures : List Failure) : SchemaError :=
  failed ⟨headline, [], failures⟩

def message : SchemaError → String
  | failed failure => (Report.ofFailure failure).text
  | unreadable literal expected =>
    "Failed to parse value \"" ++ literal ++ "\". It should have matched one of " ++
      ", ".intercalate expected ++ "."
  | cycle stack => "Invalid pattern cycle: " ++ " -> ".intercalate stack
  | unknown name => "Type " ++ name ++ " is not defined"
  | invalid reason => reason

def isCycle : SchemaError → Bool
  | cycle _ => true
  | _ => false

/-- The error as a failure, to stand beside failed matches. -/
def failure : SchemaError → Failure
  | failed failure => failure
  | error => .plain error.message

/-- The error seen from one level up. A cycle keeps its identity, so that a context that can end
the recursion still recognises it. -/
def under (segment : String) : SchemaError → SchemaError
  | cycle stack => cycle stack
  | error => failed (error.failure.under segment)

end SchemaError
end DataContract
