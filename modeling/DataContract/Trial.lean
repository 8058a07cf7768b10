import DataContract.Schema.Mutation

/-!
# Trials

A trial is a value made from a derived schema. Candidates are worked out without any random choice;
only the ones that are tried draw from the source of random numbers, which they share.
-/

namespace DataContract

/-- Tries the first candidates in order, and says whether there is one more. That one is not tried,
so it draws nothing. -/
def tryFirst {α β : Type} (make : α → Gen β) (count : Nat) (candidates : Enumeration α) :
    Draw (List (Attempt β) × Bool) := do
  let (first, more) := candidates.splitAt count
  return (← first.mapM fun candidate => (make candidate).run, more)

namespace Schema

/-- The candidates for positive tests, or for negative ones, with their errors. -/
def candidates (context : Context) (row : Row) (negative : Bool) (schema : Schema) :
    Enumeration (Attempt Schema) :=
  if negative then (schema.mutants context row).map fun outcome => Attempt.ofExcept outcome.toExcept
  else schema.variants context row

/-- A value of a candidate. -/
def generateCandidate (context : Context) (candidate : Attempt Schema) : Gen Value := do
  Schema.generate context (← Gen.attempt candidate)

end Schema
end DataContract
