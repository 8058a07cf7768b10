import DataContract.Attempt
import DataContract.Phrasing
import DataContract.Registry
import DataContract.Settings
import DataContract.Verdict

/-!
# Contexts

What a check or a generation depends on besides schema and data: the registry, the wording of
messages, the policy on keys, whether examples are preferred, values bound to keys, and the named
schemas that are being expanded at the moment.

- `Context.keyProblems`: keys that are missing or not declared.
- `Context.enter`: one more schema under expansion, unless it is there already.
- `Context.protect`: a computation under expansion; a context that can end a recursion absorbs the
  cycle errors from inside.
-/

namespace DataContract

/-- Which problems with keys are reported. -/
structure KeyPolicy where
  missing : Bool
  unexpected : Bool
  deriving DecidableEq

/-- Every problem is reported. -/
def KeyPolicy.strict : KeyPolicy := ⟨true, true⟩

/-- Whether examples in a schema take the place of random values. -/
inductive Mode where
  | synthesize
  | preferExamples
  deriving DecidableEq

/-- A named schema under expansion, and whether its place can end the recursion. -/
structure Frame where
  identity : String
  nullable : Bool
  deriving DecidableEq

/-- What a check or a generation depends on. The innermost expansion comes first. -/
structure Context where
  registry : Registry
  phrasing : Phrasing
  keyPolicy : KeyPolicy
  mode : Mode
  maxCombinations : Option Nat
  dictionary : Fields Value
  expanding : List Frame

/-- A key that is required and absent, or present and not declared. -/
structure KeyProblem where
  name : String
  missing : Bool
  deriving DecidableEq

/-- The problem in words; `label` names the kind of key. -/
def KeyProblem.failure (problem : KeyProblem) (label : String) (phrasing : Phrasing) : Failure :=
  (Failure.plain (if problem.missing then phrasing.missingKey label problem.name
    else phrasing.unexpectedKey label problem.name)).under problem.name

namespace Context

/-- Nothing but a registry. -/
def ofRegistry (registry : Registry) : Context :=
  ⟨registry, .request, .strict, .synthesize, none, [], []⟩

instance : Inhabited Context := ⟨ofRegistry .initial⟩

/-- A context for requests and test generation. -/
def ofSettings (registry : Registry) (settings : Settings) : Context :=
  { ofRegistry registry with
    mode := if settings.preferExamples then .preferExamples else .synthesize
    keyPolicy := ⟨true, !settings.extensible⟩
    maxCombinations := settings.maxCombinations }

/-- A context for responses that are checked against the contract. -/
def forResponse (registry : Registry) (settings : Settings) : Context :=
  let context := { ofSettings registry settings with phrasing := .response }
  if settings.checkResponseValues then { context with mode := .preferExamples } else context

/-- Problems between declared keys and the names that are present, missing ones first. -/
def keyProblems (context : Context) (declared actual : List String) : List KeyProblem :=
  (if context.keyPolicy.missing then
    (declared.filter fun key => !Key.isOptional key && !actual.contains key).map (⟨·, true⟩)
  else []) ++
  (if context.keyPolicy.unexpected then
    (actual.filter fun name => !declared.any fun key => Key.name key == name).map (⟨·, false⟩)
  else [])

/-- The context with one more schema under expansion. A schema that is under expansion already in
the same kind of place gives none where the recursion can end, and a cycle error elsewhere. -/
def enter (context : Context) (schema : Schema) (nullable : Bool) :
    Except SchemaError (Option Context) :=
  match schema.identity with
  | none => .ok (some context)
  | some identity =>
    if context.expanding.contains ⟨identity, nullable⟩ then
      if nullable then .ok none
      else .error (.cycle ((context.expanding.reverse.map (·.identity)) ++ [identity]))
    else .ok (some { context with expanding := ⟨identity, nullable⟩ :: context.expanding })

/-- A computation with one more schema under expansion. None when the schema is under expansion
already, or when a cycle error comes from inside, in a place that can end the recursion. -/
def protect {m : Type → Type} {α : Type} [Monad m] [MonadExceptOf Halt m] (context : Context)
    (schema : Schema) (nullable : Bool) (body : Context → m α) : m (Option α) :=
  match context.enter schema nullable with
  | .error cause => throw (.error cause)
  | .ok none => pure none
  | .ok (some child) =>
    tryCatch (some <$> body child) fun halt =>
      match halt with
      | .error (.cycle stack) => if nullable then pure none else throw (.error (.cycle stack))
      | halt => throw halt

end Context
end DataContract
