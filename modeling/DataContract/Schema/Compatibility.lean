import DataContract.Schema.Check

/-!
# Compatibility

`Schema.covers` tells whether every value of one schema is also a value of another. Each side has
its own context. Pairs of type names that are under comparison count as compatible, which ends the
comparison of recursive schemas.

- Two unions are compared alternative by alternative (`Schema.fitsWithin`).
- A literal is covered when its value is accepted.
- An object covers another one that requires what it requires and declares nothing else, if the
  fields they share are compatible.
-/

namespace DataContract

/-- A bound that may be missing in messages. -/
def boundText (bound : Option Double) : String := (bound.map Double.bound).getD "unbounded"

/-- The other range lies inside this one. -/
def rangeCovers (what : String) (this other : NumberRange) : Verdict :=
  let leastOk := match this.least, other.least with
    | none, _ => true
    | some _, none => false
    | some x, some y => x ≤ y
  let mostOk := match this.most, other.most with
    | none, _ => true
    | some _, none => false
    | some x, some y => y ≤ x
  if leastOk && mostOk then .ok
  else .rejected (.plain ("Expected " ++ what ++ " range " ++ boundText this.least ++ " to " ++
    boundText this.most ++ ", the other schema allows " ++ boundText other.least ++ " to " ++
    boundText other.most))

/-- The lengths as numbers, rounded where they are beyond 2^53. -/
def LengthRange.toNumberRange (range : LengthRange) : NumberRange :=
  ⟨range.least.map fun n => .ofInt n, range.most.map fun n => .ofInt n⟩

/-- Verdicts in order, none if one is missing. -/
def allVerdicts {α : Type} (check : α → Option Verdict) : List α → Option (List Verdict)
  | [] => some []
  | item :: rest => do return (← check item) :: (← allVerdicts check rest)

/-- The first verdict that accepts, or the first one, or a failure when there is none. -/
def bestVerdict (verdicts : List Verdict) (candidate : Schema) : Verdict :=
  match verdicts.find? Verdict.isAccepted, verdicts.head? with
  | some verdict, _ => verdict
  | none, some verdict => verdict
  | none, none => .rejected (.plain ("No type to compare " ++ candidate.typeName ++ " against"))

/-- Every candidate is covered by one of the containers. -/
def eachWithin (covers : Schema → Schema → Option Verdict) (candidates containers : List Schema) :
    Option Verdict := do
  let verdicts ← allVerdicts (fun candidate => do
    return bestVerdict (← allVerdicts (fun container => covers container candidate) containers)
      candidate) candidates
  return .all verdicts

/-- The verdicts on the fields that an object declares, in declared order. -/
def fieldVerdicts (covers : Schema → Schema → Option Verdict) (phrasing : Phrasing)
    (others : Fields Schema) : List (String × Schema) → Option (List Verdict)
  | [] => some []
  | (key, schema) :: rest => do
    let name := Key.name key
    let own ← match List.find? (fun other => Key.name other.1 == name) others with
      | none =>
        some (if Key.isOptional key then []
          else [.rejected ((Failure.plain (phrasing.missingKey "key" name)).under name)])
      | some (otherKey, other) =>
        if !Key.isOptional key && Key.isOptional otherKey then
          some [.rejected ((Failure.plain
            ("Expected required key named \"" ++ name ++ "\", but it is optional")).under name)]
        else (covers schema other).map fun verdict => [verdict.under name]
    return own ++ (← fieldVerdicts covers phrasing others rest)

namespace Schema

def isReference : Schema → Bool
  | reference _ => true
  | _ => false

/-- A reference followed once. -/
def followed (registry : Registry) : Schema → Except SchemaError Schema
  | reference name => registry.lookup name
  | schema => .ok schema

/-- Whether only scalar literals are among the alternatives. -/
def onlyScalarLiterals (members : List Schema) : Bool :=
  members.all fun schema => schema.isLiteral && schema.isScalar

/-- The verdict on compatibility, in so many steps; `stack` holds the pairs under comparison. -/
def coversWithin (context other : Context) :
    Nat → List (String × String) → Schema → Schema → Option Verdict
  | 0, _, _, _ => none
  | fuel + 1, stack, container, candidate =>
    let mismatch := some (Verdict.rejected
      (context.phrasing.typeMismatch container.typeName candidate.typeName))
    if container.isReference || candidate.isReference then
      let pair := (container.typeName, candidate.typeName)
      if stack.contains pair then some .ok
      else
        match container.followed context.registry, candidate.followed other.registry with
        | .error cause, _ => some (.rejected cause.failure)
        | .ok _, .error cause => some (.rejected cause.failure)
        | .ok target, .ok source => coversWithin context other fuel (pair :: stack) target source
    else
      match container, candidate with
      | union members _ _ _, candidate => do
        let verdict ← eachWithin (coversWithin context other fuel stack)
          (other.registry.alternatives candidate) (alternativesOfAll members)
        if !verdict.isAccepted && onlyScalarLiterals members then mismatch else return verdict
      | container, union members _ _ _ =>
        eachWithin (coversWithin context other fuel stack) (alternativesOfAll members) [container]
      | container, literal value _ => do
        if ← container.accepts context value then return .ok else mismatch
      | string this _, string that _ =>
        some (rangeCovers "length" this.toNumberRange that.toNumberRange)
      | number this _ _, number that _ _ => some (rangeCovers "value" this that)
      | boolean _, boolean _ => some .ok
      | null, null => some .ok
      | object fields _, object others _ => do
        let verdicts ← fieldVerdicts (coversWithin context other fuel stack)
          context.phrasing others fields
        let problems := (context.keyProblems (Fields.names fields)
          (others.map fun entry => Key.name entry.1)).filter (!·.missing)
        return .all (verdicts ++ problems.map fun problem =>
          .rejected (problem.failure "key" context.phrasing))
      | list item _ _, list item' _ _ =>
        (coversWithin context other fuel stack item item').map (.under "[]")
      | _, _ => mismatch

/-- Steps enough: a pair of names is entered once, and between two of them the schemas get
smaller. -/
def coversBudget (context other : Context) (mine theirs : Nat) : Nat :=
  let own := mine + context.registry.size + 1
  let others := theirs + other.registry.size + 1
  (own * others + 1) * (own + others + 1)

/-- Whether every value of `candidate` is also a value of `container`. -/
def covers (context other : Context) (container candidate : Schema) : Option Verdict :=
  coversWithin context other (coversBudget context other container.size candidate.size) []
    container candidate

/-- Whether a schema fits within one of the containers, alternative by alternative. -/
def fitsWithin (context other : Context) (candidate : Schema) (containers : List Schema) :
    Option Verdict :=
  eachWithin (coversWithin other context
    (coversBudget other context (sizeOfAll containers) candidate.size) [])
    (context.registry.alternatives candidate) containers

end Schema
end DataContract
