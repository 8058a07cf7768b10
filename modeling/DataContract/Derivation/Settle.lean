import DataContract.Attempt
import DataContract.Enumeration

/-!
# Settling errors

One bad alternative must not hide the others: `Enumeration.settle` passes results on and sets errors
aside. When there was no result, the errors come as one at the end. A lone cycle keeps its identity,
so that a place which can end the recursion still recognises it.
-/

namespace DataContract

/-- The errors of alternatives that all failed, as one: the first when all are cycles, otherwise all
their failures under a headline. -/
def SchemaError.exhausted (headline : String) (first : SchemaError) (rest : List SchemaError) :
    SchemaError :=
  if (first :: rest).all isCycle then first
  else aggregate headline ((first :: rest).map failure)

/-- The schema error of an attempt. -/
def Attempt.error? {α : Type} : Attempt α → Option SchemaError
  | .error (.error cause) => some cause
  | _ => none

namespace Enumeration

variable {α : Type}

/-- What comes after the last item: one error if nothing but errors came before. -/
def closing (headline : String) : List SchemaError → Enumeration (Attempt α)
  | [] => nil
  | first :: rest => single (.error (.error (.exhausted headline first rest)))

/-- Passes results on and sets errors aside, with the errors met so far. -/
def settleFrom (headline : String) (produced : Bool) (errors : List SchemaError) :
    Enumeration (Attempt α) → Enumeration (Attempt α)
  | nil => if produced then nil else closing headline errors
  | cons item rest =>
    match Attempt.error? item with
    | some cause => settleFrom headline produced (errors ++ [cause]) (rest ())
    | none => cons item fun _ => settleFrom headline true errors (rest ())

/-- Passes results on and sets errors aside; when there is no result, the errors come as one. -/
def settle (headline : String) (items : Enumeration (Attempt α)) : Enumeration (Attempt α) :=
  settleFrom headline false [] items

theorem toList_settleFrom_of_produced (headline : String) (errors : List SchemaError)
    (items : Enumeration (Attempt α)) :
    (settleFrom headline true errors items).toList =
      items.toList.filter fun item => (Attempt.error? item).isNone := by
  induction items generalizing errors with
  | nil => rfl
  | cons item rest ih =>
    cases h : Attempt.error? item <;> simp [settleFrom, h, ih]

/-- The settled items: the results if there are any, otherwise all errors as one. -/
theorem toList_settleFrom (headline : String) (errors : List SchemaError)
    (items : Enumeration (Attempt α)) :
    (settleFrom headline false errors items).toList =
      if items.toList.any (fun item => (Attempt.error? item).isNone) then
        items.toList.filter fun item => (Attempt.error? item).isNone
      else (closing headline (errors ++ items.toList.filterMap Attempt.error?)).toList := by
  induction items generalizing errors with
  | nil => simp [settleFrom]
  | cons item rest ih =>
    cases h : Attempt.error? item with
    | some cause => simp [settleFrom, h, ih]
    | none => simp [settleFrom, h, toList_settleFrom_of_produced]

theorem toList_settle (headline : String) (items : Enumeration (Attempt α)) :
    (settle headline items).toList =
      if items.toList.any (fun item => (Attempt.error? item).isNone) then
        items.toList.filter fun item => (Attempt.error? item).isNone
      else (closing headline (items.toList.filterMap Attempt.error?)).toList := by
  simp [settle, toList_settleFrom]

end Enumeration
end DataContract
