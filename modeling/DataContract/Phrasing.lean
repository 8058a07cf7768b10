import DataContract.Failure
import DataContract.Text.Capital
import DataContract.Value.Text

/-!
# Phrasing of mismatches

Requests and responses word the same problem differently. `Phrasing.mismatch` and the two messages
on keys are all that depends on it.
-/

namespace DataContract

/-- Whose data is checked against the contract. -/
inductive Phrasing where
  | request
  | response
  deriving DecidableEq

namespace Phrasing

/-- Something other than expected was found. -/
def mismatch (phrasing : Phrasing) (expected actual : String) : String :=
  match phrasing with
  | request => "Expected " ++ expected ++ ", actual was " ++ actual
  | response => "Contract expected " ++ expected ++ " but response contained " ++ actual

/-- A key that nothing declares. -/
def unexpectedKey (phrasing : Phrasing) (label name : String) : String :=
  match phrasing with
  | request => capitalize label ++ " named \"" ++ name ++ "\" was unexpected"
  | response => capitalize label ++ " named \"" ++ name ++
      "\" in the response was not in the contract"

/-- A required key that is absent. -/
def missingKey (phrasing : Phrasing) (label name : String) : String :=
  match phrasing with
  | request => "Expected " ++ label ++ " named \"" ++ name ++ "\" was missing"
  | response =>
    capitalize label ++ " named \"" ++ name ++ "\" in the contract was not found in the response"

/-- A value of the wrong kind, or none at all. -/
def valueMismatch (phrasing : Phrasing) (expected : String) (actual : Option Value) : Failure :=
  .plain (phrasing.mismatch expected ((actual.map Value.snippet).getD "nothing"))

/-- Two schemas that do not fit. -/
def typeMismatch (phrasing : Phrasing) (expected actual : String) : Failure :=
  .plain (phrasing.mismatch expected actual)

end Phrasing
end DataContract
