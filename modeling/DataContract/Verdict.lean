import DataContract.Header
import DataContract.SchemaError

/-!
# Verdicts

The result of checking data: accepted, with the variables captured from it, or rejected with a
failure.

- `Verdict.all`: accepted when every part is, otherwise every failure.
- `Verdict.capture`: fills variables from a response; what selects nothing is an error.
-/

namespace DataContract

/-- The result of checking data against a schema. -/
inductive Verdict where
  | accepted (captured : Fields String)
  | rejected (failure : Failure)

namespace Verdict

instance : Inhabited Verdict := ⟨accepted []⟩

/-- Accepted, with nothing captured. -/
def ok : Verdict := accepted []

def isAccepted : Verdict → Bool
  | accepted _ => true
  | rejected _ => false

def failure? : Verdict → Option Failure
  | accepted _ => none
  | rejected failure => some failure

/-- Accepted when every verdict is, otherwise all the failures. -/
def all (verdicts : List Verdict) : Verdict :=
  match verdicts.filterMap failure? with
  | [] => ok
  | failures => rejected (.all failures)

/-- The verdict seen from one level up. -/
def under (segment : String) : Verdict → Verdict
  | rejected failure => rejected (failure.under segment)
  | accepted captured => accepted captured

theorem isAccepted_under (segment : String) (verdict : Verdict) :
    (verdict.under segment).isAccepted = verdict.isAccepted := by
  cases verdict <;> rfl

theorem isAccepted_all (verdicts : List Verdict) :
    (all verdicts).isAccepted = verdicts.all isAccepted := by
  induction verdicts with
  | nil => rfl
  | cons verdict rest ih =>
    cases verdict with
    | accepted captured => simpa [all, List.filterMap_cons, failure?, isAccepted] using ih
    | rejected failure => simp [all, failure?, isAccepted]

/-- The text that a selector picks from a response: the body, a dotted path into it, or a header. -/
def selectText (selector : String) (headers : Fields String) (body : Value) :
    Except SchemaError String :=
  let after? (lead : String) : Option String :=
    if lead.toList.isPrefixOf selector.toList then
      some (String.ofList (selector.toList.drop lead.toList.length))
    else none
  if selector = "response-body" then .ok body.literal
  else match after? "response-body." with
    | some path =>
      match body.select path with
      | some part => .ok part.literal
      | none => .error (.invalid ("Could not find " ++ path ++ " in the response body"))
    | none =>
      match after? "response-header." with
      | some name =>
        match Header.find? name headers with
        | some text => .ok text
        | none => .error (.invalid ("Response header " ++ name ++ " was not found"))
      | none => .error (.invalid ("Binding selector " ++ selector ++
          " must start with response-body or response-header"))

/-- Fills the variables of an accepted verdict, by ascending name; a rejected one stays as it is. -/
def capture (bindings headers : Fields String) (body : Value) : Verdict → Except SchemaError Verdict
  | rejected failure => .ok (rejected failure)
  | accepted captured => do
    let filled ← (Fields.sorted bindings).foldlM (fun done binding => do
      let text ← selectText binding.2 headers body
      return Fields.put binding.1 text done) captured
    return accepted filled

end Verdict
end DataContract
