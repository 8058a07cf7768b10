import DataContract.Row
import DataContract.Schema.Generation

/-!
# Credentials

How a request proves who sends it: a bearer token, or a key in a header or in the query. Header
names are the same in either case of their letters.

- `Credential.check`: whether a request carries the credential.
- `Credential.addToHeaders`, `Credential.addToQuery`: adds it; a value that is not configured is
  made.
- `Credential.removeFromHeaders`, `Credential.removeFromQuery`: takes it off again.
-/

namespace DataContract

/-- A way to prove identity, with its configured value. -/
inductive Credential where
  | bearer (token : Option String)
  | headerKey (name : String) (value : Option String)
  | queryKey (name : String) (value : Option String)
  deriving DecidableEq

namespace Credential

/-- The header of bearer tokens. -/
def authorization : String := "Authorization"

/-- Whether a header value starts with the word for bearer tokens. -/
def isBearer (text : String) : Bool :=
  ("bearer".toList).isPrefixOf (text.toList.map Char.toLower)

/-- Whether the request carries the credential. -/
def check (headers : Fields String) (query : List (String × String)) : Credential → Verdict
  | bearer _ =>
    match Header.find? authorization headers with
    | none => .rejected (.plain (authorization ++ " header is missing in request"))
    | some text =>
      if isBearer text then .ok
      else .rejected (.plain (authorization ++ " header must be prefixed with \"Bearer\""))
  | headerKey name _ =>
    match Header.find? name headers with
    | none => .rejected (.plain ("API-Key named " ++ name ++
        " was not present in the request headers"))
    | some _ => .ok
  | queryKey name _ =>
    if query.any (·.1 == name) then .ok
    else .rejected (.plain ("API-Key named " ++ name ++ " was not present in the query string"))

/-- The configured value, or a made text. -/
def valueOrMade (context : Context) : Option String → Gen String
  | some value => return value
  | none => return (← Schema.generate context .text).literal

/-- Adds the credential to the headers; one for the query leaves them alone. -/
def addToHeaders (context : Context) (headers : Fields String) : Credential → Gen (Fields String)
  | bearer token => do
    return Fields.put authorization ("Bearer " ++ (← valueOrMade context token)) headers
  | headerKey name value => do return Fields.put name (← valueOrMade context value) headers
  | queryKey _ _ => return headers

/-- Adds the credential to the query in place of earlier ones; one for the headers leaves it
alone. -/
def addToQuery (context : Context) (query : List (String × String)) :
    Credential → Gen (List (String × String))
  | queryKey name value => do
    return query.filter (·.1 != name) ++ [(name, ← valueOrMade context value)]
  | _ => return query

/-- The headers without the credential. -/
def removeFromHeaders (headers : Fields String) : Credential → Fields String
  | bearer _ => Header.erase authorization headers
  | headerKey name _ => Header.erase name headers
  | queryKey _ _ => headers

/-- The query without the credential. -/
def removeFromQuery (query : List (String × String)) : Credential → List (String × String)
  | queryKey name _ => query.filter (·.1 != name)
  | _ => query

/-- The name of the parameter that carries the credential. -/
def parameterName : Credential → String
  | bearer _ => authorization
  | headerKey name _ => name
  | queryKey name _ => name

/-- Whether an example row supplies the credential. -/
def isInRow (row : Row) (credential : Credential) : Bool := row.binds credential.parameterName

/-- The query parameter that the credential adds to a template. -/
def queryParameter? : Credential → Option String
  | queryKey name _ => some name
  | _ => none

end Credential
end DataContract
