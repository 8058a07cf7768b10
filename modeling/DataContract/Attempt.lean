import DataContract.Outcome

/-!
# Attempts

A computation over schemas ends in a result or in a schema error, unless references lead back to
themselves with nothing between. That last case is kept apart from errors, so that nothing which
recovers from an error can hide it.
-/

namespace DataContract

/-- Why a computation has no result: an error, or references that lead on without end. -/
inductive Halt where
  | error (cause : SchemaError)
  | endless

/-- A computation that may have no result. -/
abbrev Attempt (α : Type) := Except Halt α

namespace Halt

/-- The halt seen from one level up. -/
def under (segment : String) : Halt → Halt
  | error cause => error (cause.under segment)
  | endless => endless

end Halt

/-- Schema errors as halts. -/
def Attempt.ofExcept {α : Type} : Except SchemaError α → Attempt α
  | .ok content => .ok content
  | .error cause => .error (.error cause)

/-- A result that is none when references lead on without end. -/
def Attempt.ofOption {α : Type} : Option α → Attempt α
  | some content => .ok content
  | none => .error .endless

namespace Attempt

variable {α β : Type}

theorem bind_eq_ok {first : Attempt α} {next : α → Attempt β} {b : β} :
    first >>= next = .ok b ↔ ∃ a, first = .ok a ∧ next a = .ok b := by
  cases first <;> simp [bind, Except.bind]

theorem ofOption_eq_ok {result : Option α} {a : α} : ofOption result = .ok a ↔ result = some a := by
  cases result <;> simp [ofOption]

end Attempt

/-- An attempt as an outcome: an error is expected, endless references are not. -/
def Outcome.ofAttempt {α : Type} : Attempt α → Outcome α
  | .ok content => .pure content
  | .error (.error cause) => .failed cause.failure
  | .error .endless => .crash "references without end"

end DataContract
