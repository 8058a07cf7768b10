import DataContract.Value

/-!
# The text of a value

- `Value.compact`: JSON without spaces, the keys of every object in ascending order.
- `Value.prettyAt`: the same with an indent of two per level.
- `Value.literal`: the raw text of a query or header: a string is its own text.
- `Value.display`, `Value.snippet`: a value as messages show it.
-/

namespace DataContract

/-- One hexadecimal digit in lower case. -/
def hexDigit (n : Nat) : Char := Nat.digitChar n

/-- One character inside a JSON string. -/
def escapeChar (c : Char) : List Char :=
  if c = '"' then ['\\', '"']
  else if c = '\\' then ['\\', '\\']
  else if c = '\n' then ['\\', 'n']
  else if c = '\r' then ['\\', 'r']
  else if c = '\t' then ['\\', 't']
  else if c.toNat = 8 then ['\\', 'b']
  else if c.toNat = 12 then ['\\', 'f']
  else if c.toNat < 32 then ['\\', 'u', '0', '0', hexDigit (c.toNat / 16), hexDigit (c.toNat % 16)]
  else [c]

/-- A text as a JSON string. -/
def quoted (text : String) : String :=
  String.ofList ('"' :: text.toList.flatMap escapeChar ++ ['"'])

namespace Value

mutual

/-- JSON without spaces, keys in ascending order. -/
def compact : Value → String
  | null => "null"
  | boolean b => if b then "true" else "false"
  | number n => n.text
  | string s => quoted s
  | array items => "[" ++ ",".intercalate (compactItems items) ++ "]"
  | object entries =>
    "\x7b" ++ ",".intercalate ((Fields.sorted (compactEntries entries)).map fun entry =>
      quoted entry.1 ++ ":" ++ entry.2) ++ "\x7d"

def compactItems : List Value → List String
  | [] => []
  | item :: rest => compact item :: compactItems rest

def compactEntries : List (String × Value) → Fields String
  | [] => []
  | (key, value) :: rest => (key, compact value) :: compactEntries rest

end

/-- Lines of a container, one deeper than its brackets. -/
def block (indent : Nat) (opening closing : String) : List String → String
  | [] => opening ++ closing
  | lines =>
    let margin (n : Nat) := "\n" ++ String.ofList (List.replicate (2 * n) ' ')
    opening ++ margin (indent + 1) ++ ("," ++ margin (indent + 1)).intercalate lines ++
      margin indent ++ closing

mutual

/-- JSON over several lines, keys in ascending order. -/
def prettyAt (indent : Nat) : Value → String
  | array items => block indent "[" "]" (prettyItems (indent + 1) items)
  | object entries =>
    block indent "\x7b" "\x7d"
      ((Fields.sorted (prettyEntries (indent + 1) entries)).map fun entry =>
        quoted entry.1 ++ ": " ++ entry.2)
  | null => "null"
  | boolean b => if b then "true" else "false"
  | number n => n.text
  | string s => quoted s

def prettyItems (indent : Nat) : List Value → List String
  | [] => []
  | item :: rest => prettyAt indent item :: prettyItems indent rest

def prettyEntries (indent : Nat) : List (String × Value) → Fields String
  | [] => []
  | (key, value) :: rest => (key, prettyAt indent value) :: prettyEntries indent rest

end

/-- The raw text of a query or header. -/
def literal : Value → String
  | string s => s
  | v => v.compact

/-- The value for a reader: containers over several lines, everything else raw. -/
def display (v : Value) : String := if v.isScalar then v.literal else prettyAt 0 v

/-- The word for the kind of value in messages. -/
def kindWord : Value → String
  | null => "null"
  | boolean _ => "boolean"
  | number _ => "number"
  | string _ => "string"
  | array _ => "json array"
  | object _ => "json object"

/-- The value in messages: strings stand between plain quotes. -/
def shown : Value → String
  | string s => "\"" ++ s ++ "\""
  | v => v.compact

/-- The value in messages, with its kind. -/
def snippet (v : Value) : String := v.shown ++ " (" ++ v.kindWord ++ ")"

end Value
end DataContract
