import DataContract.SchemaError

/-!
# Outcomes of a pipeline

One broken candidate must not stop the others, so each is carried as an outcome: a value with
notes, a failure, or a crash. A crash always wins; failures of several parts are merged.

- `Outcome.combine`: two outcomes as one.
- `Outcome.foldList`, `Outcome.foldFields`: many outcomes as one, in order.
- `Outcome.noted`, `Outcome.under`: context from one level up.
-/

namespace DataContract

/-- Diagnostics on a value that was produced. -/
structure Note where
  messages : List String
  path : List String
  deriving DecidableEq

/-- A produced value, an expected failure, or an unexpected error with its context. -/
inductive Outcome (α : Type) where
  | value (content : α) (notes : List Note)
  | failed (failure : Failure)
  | crashed (error message path : String)

/-- Two texts with a separator between them, if neither is empty. -/
def joinNonEmpty (outer inner separator : String) : String :=
  if outer = "" then inner else if inner = "" then outer else outer ++ separator ++ inner

namespace Outcome

variable {α β κ : Type}

/-- A value without notes. -/
def pure (content : α) : Outcome α := value content []

/-- An unexpected error without context. -/
def crash (error : String) : Outcome α := crashed error "" ""

/-- A schema error is an expected outcome. -/
def ofExcept : Except SchemaError α → Outcome α
  | .ok content => pure content
  | .error error => failed error.failure

def isValue : Outcome α → Bool
  | value _ _ => true
  | _ => false

def value? : Outcome α → Option α
  | value content _ => some content
  | _ => none

/-- The failure of an outcome without a value. A crash becomes a failure whose path is its dotted
context taken apart. -/
def failure? : Outcome α → Option Failure
  | value _ _ => none
  | failed failure => some failure
  | crashed error message path =>
    some ⟨joinNonEmpty message error ": ",
      ((path.toList.splitOn '.').filter (· ≠ [])).map String.ofList, []⟩

/-- The value, or the failure as an error. -/
def toExcept : Outcome α → Except SchemaError α
  | value content _ => .ok content
  | failed failure => .error (.failed failure)
  | crashed error message path =>
    .error (.failed ((failure? (crashed error message path : Outcome α)).getD default))

/-- The value under a function, or a default. -/
def valueOr (other : β) (f : α → β) : Outcome α → β
  | value content _ => f content
  | _ => other

def map (f : α → β) : Outcome α → Outcome β
  | value content notes => value (f content) notes
  | failed failure => failed failure
  | crashed error message path => crashed error message path

/-- Two outcomes as one. The first crash wins; two failures are merged. -/
def combine (f : α → β → α) : Outcome α → Outcome β → Outcome α
  | value a notes, value b more => value (f a b) (notes ++ more)
  | crashed error message path, _ => crashed error message path
  | _, crashed error message path => crashed error message path
  | failed a, failed b => failed (.all [a, b])
  | failed a, value _ _ => failed a
  | value _ _, failed b => failed b

/-- The messages of all notes that say something, a line each. -/
def noteText (notes : List Note) : Option String :=
  match (notes.flatMap (·.messages)).filter (· ≠ "") with
  | [] => none
  | messages => some ("\n".intercalate messages)

/-- Adds a message and a segment from one level up. -/
def noted (message segment : String) : Outcome α → Outcome α
  | value content notes => value content (notes ++ [⟨[message], [segment]⟩])
  | failed failure =>
    failed ((if message = "" then failure else .because message failure).under segment)
  | crashed error inner path =>
    crashed error (joinNonEmpty message inner ": ") (joinNonEmpty segment path ".")

/-- The outcome seen from one level up. -/
def under (segment : String) : Outcome α → Outcome α := noted "" segment

/-- Many outcomes as one, in order. -/
def foldList (items : List (Outcome α)) : Outcome (List α) :=
  items.foldl (combine fun done item => done ++ [item]) (pure [])

/-- Many outcomes under their keys as one, in order. -/
def foldFields [DecidableEq κ] (entries : List (κ × Outcome α)) : Outcome (List (κ × α)) :=
  entries.foldl (fun done entry =>
    combine (fun fields item => Fields.put entry.1 item fields) done entry.2) (pure [])

end Outcome
end DataContract
