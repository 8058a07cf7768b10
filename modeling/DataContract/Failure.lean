/-!
# Failures

A failure is a tree: a message, the segments that lead from its parent to it, and its causes. Only
the leaves are reported.

- `Failure.leaves`: every leaf with its whole path and the messages on the way.
- `Failure.under`: the same failure one segment further down.
- `Failure.all`: several failures as one; a single one is not wrapped.
- `renderPath`: segments as a reader sees them.
-/

namespace DataContract

/-- What went wrong, where, and why. -/
structure Failure where
  message : String
  path : List String
  causes : List Failure

/-- A leaf of a failure tree: its whole path and the messages from the root down to it. -/
structure Leaf where
  path : List String
  messages : List String
  deriving DecidableEq

namespace Failure

instance : Inhabited Failure := ⟨"", [], []⟩

/-- A failure without causes, at the present position. -/
def plain (message : String) : Failure := ⟨message, [], []⟩

/-- A failure that gives context to a more specific one. -/
def because (message : String) (cause : Failure) : Failure := ⟨message, [], [cause]⟩

/-- Several failures as one; a single failure stays as it is. -/
def all : List Failure → Failure
  | [failure] => failure
  | failures => ⟨"", [], failures⟩

/-- The failure seen from one level up. An empty segment adds nothing. -/
def under (segment : String) (failure : Failure) : Failure :=
  if segment = "" then failure else { failure with path := segment :: failure.path }

mutual

/-- The leaves below a position, given the path to it and the messages so far. -/
def leavesBelow (path messages : List String) : Failure → List Leaf
  | ⟨message, own, causes⟩ =>
    let messages := if message = "" then messages else messages ++ [message]
    match causes with
    | [] => [⟨path ++ own, messages⟩]
    | first :: rest => leavesBelow (path ++ own) messages first ++
        leavesOfAll (path ++ own) messages rest

def leavesOfAll (path messages : List String) : List Failure → List Leaf
  | [] => []
  | first :: rest => leavesBelow path messages first ++ leavesOfAll path messages rest

end

/-- Every leaf in tree order. -/
def leaves (failure : Failure) : List Leaf := leavesBelow [] [] failure

theorem leavesOfAll_eq_flatMap (path messages : List String) (failures : List Failure) :
    leavesOfAll path messages failures = failures.flatMap (leavesBelow path messages) := by
  induction failures with
  | nil => simp [leavesOfAll]
  | cons first rest ih => simp [leavesOfAll, ih]

end Failure

/-- The name inside a marker for an alternative, `(~~~name)`. -/
def alternativeName? (segment : String) : Option String :=
  match segment.toList with
  | '(' :: '~' :: '~' :: '~' :: rest =>
    if rest.getLast? == some ')' then some (String.ofList rest.dropLast) else none
  | _ => none

/-- Adds one segment: an index attaches directly, an alternative stands in brackets after a blank,
anything else follows a dot. -/
def appendSegment (text segment : String) : String :=
  if segment.toList.head? == some '[' then text ++ segment
  else
    match alternativeName? segment with
    | some name => (if text = "" then "" else text ++ " ") ++ "(when " ++ name ++ ")"
    | none => (if text = "" then "" else text ++ ".") ++ segment

/-- A path as a reader sees it. -/
def renderPath (segments : List String) : String := segments.foldl appendSegment ""

example : renderPath ["BODY", "items", "[0]", "(~~~Person object)", "name"] =
    "BODY.items[0] (when Person object).name" := by decide +kernel

end DataContract
