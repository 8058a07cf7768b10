import DataContract.Key
import DataContract.Value.Text

/-!
# Schemas

A schema describes a set of data. Named and recursive schemas are written with references, which
are looked up when they are reached, so a schema itself is a finite tree.

- `Schema.typeName`, `Schema.display`: a schema in messages and in query templates.
- `Schema.identity`: the name under which its expansion is tracked.
- `Schema.alternatives`: the alternatives of a union, nested unions taken apart.
-/

namespace DataContract

/-- Least and greatest number of characters. -/
structure LengthRange where
  least : Option Nat
  most : Option Nat
  deriving DecidableEq

/-- Least and greatest number. -/
structure NumberRange where
  least : Option Double
  most : Option Double
  deriving DecidableEq

/-- A description of data. `title` is the name that a schema was registered under, `sample` a
literal that its author gives as an example. -/
inductive Schema where
  | string (length : LengthRange) (sample : Option String)
  | number (range : NumberRange) (fractional : Bool) (sample : Option String)
  | boolean (sample : Option String)
  | null
  /-- Exactly one value. -/
  | literal (value : Value) (title : Option String)
  /-- A registered schema. -/
  | reference (name : String)
  /-- Named fields; a name that ends in `?` is optional. -/
  | object (fields : List (String × Schema)) (title : Option String)
  /-- An array whose items all fit one schema. -/
  | list (item : Schema) (title sample : Option String)
  /-- One of several alternatives. Values under `key` are taken when data are made. -/
  | union (alternatives : List Schema) (key title sample : Option String)

namespace Schema

instance : Inhabited Schema := ⟨null⟩

/-- Any string. -/
def text : Schema := string ⟨none, none⟩ none

/-- Any number. -/
def numeric : Schema := number ⟨none, none⟩ false none

/-- Either boolean. -/
def flag : Schema := boolean none

/-- Exactly this value. -/
def exactly (value : Value) : Schema := literal value none

/-- The schema registered under a name. -/
def named (name : String) : Schema := reference (Token.ofName name)

/-- A schema or null. -/
def nullable (schema : Schema) : Schema := union [schema, null] none none none

def isNull : Schema → Bool
  | null => true
  | _ => false

/-- The name that the schema was registered under. -/
def title? : Schema → Option String
  | literal _ title => title
  | object _ title => title
  | list _ title _ => title
  | union _ _ title _ => title
  | _ => none

def sample? : Schema → Option String
  | string _ sample => sample
  | number _ _ sample => sample
  | boolean sample => sample
  | list _ _ sample => sample
  | union _ _ _ sample => sample
  | _ => none

/-- Whether the schema stands for "no value" in a union. -/
def isEmptyMarker (schema : Schema) : Bool := schema.isNull || schema.title? == some "(empty)"

/-- Whether a union is one alternative and a marker for "no value". -/
def isNullablePair (alternatives : List Schema) : Bool :=
  alternatives.length == 2 && alternatives.any isEmptyMarker

/-- Whether null itself is an alternative. -/
def listsNull (alternatives : List Schema) : Bool := alternatives.any isNull

/-- The alternatives, those that are null last. -/
def nullsLast (alternatives : List Schema) : List Schema :=
  alternatives.filter (!·.isNull) ++ alternatives.filter (·.isNull)

/-- Neither a container nor a reference nor a union. -/
def isScalar : Schema → Bool
  | string _ _ => true
  | number _ _ _ => true
  | boolean _ => true
  | null => true
  | literal value _ => value.isScalar
  | _ => false

def isLiteral : Schema → Bool
  | literal _ _ => true
  | _ => false

/-! ## Names -/

/-- The name of a union from those of its alternatives: `(name?)` for a nullable pair, otherwise
all of them. -/
def unionName (alternatives : List Schema) (names : List String) : String :=
  let all := "(" ++ " or ".intercalate (names.map fun name =>
    if Token.bare name = "null" then "\"null\"" else Token.bare name) ++ ")"
  if isNullablePair alternatives then
    match (alternatives.zip names).find? fun pair => !pair.1.isEmptyMarker with
    | some (_, name) => "(" ++ Token.bare name ++ "?)"
    | none => all
  else all

mutual

/-- The schema in messages. -/
def typeName : Schema → String
  | string _ _ => "string"
  | number _ _ _ => "number"
  | boolean _ => "boolean"
  | null => "null"
  | literal value _ => value.shown
  | reference name => Token.bare name
  | object _ title => (title.map Token.bare).getD "json object"
  | list item _ _ => "array of " ++ typeName item
  | union alternatives _ _ _ => unionName alternatives (typeNames alternatives)

def typeNames : List Schema → List String
  | [] => []
  | schema :: rest => typeName schema :: typeNames rest

end

/-- The schema in a query template: a token, or the raw text of a literal. -/
def display : Schema → String
  | literal value _ => value.literal
  | reference name => Token.ofName name
  | union alternatives key title sample => typeName (union alternatives key title sample)
  | schema => "(" ++ schema.typeName ++ ")"

/-- The name under which an expansion is tracked; a schema without one is never tracked. -/
def identity : Schema → Option String
  | reference name => some (Token.ofName name)
  | schema => (schema.title?.filter fun title => title != "" && title != "()").map Token.ofName

/-! ## Structure -/

mutual

/-- The alternatives that a union stands for, nested unions taken apart; any other schema stands
for itself. -/
def alternatives : Schema → List Schema
  | union members _ _ _ => alternativesOfAll members
  | schema => [schema]

def alternativesOfAll : List Schema → List Schema
  | [] => []
  | schema :: rest => alternatives schema ++ alternativesOfAll rest

end

mutual

/-- Number of nodes. -/
def size : Schema → Nat
  | object fields _ => sizeOfFields fields + 1
  | list item _ _ => size item + 1
  | union members _ _ _ => sizeOfAll members + 1
  | _ => 1

def sizeOfFields : List (String × Schema) → Nat
  | [] => 0
  | (_, schema) :: rest => size schema + sizeOfFields rest

def sizeOfAll : List Schema → Nat
  | [] => 0
  | schema :: rest => size schema + sizeOfAll rest

end

/-- The same number, or no number on either side. -/
def sameBound : Option Double → Option Double → Bool
  | some x, some y => x.same y
  | none, none => true
  | _, _ => false

/-- The same scalar schema or literal. Other schemas are never told to be the same. -/
def sameScalar : Schema → Schema → Bool
  | string length sample, string length' sample' => length == length' && sample == sample'
  | number range fractional sample, number range' fractional' sample' =>
    sameBound range.least range'.least && sameBound range.most range'.most &&
      fractional == fractional' && sample == sample'
  | boolean sample, boolean sample' => sample == sample'
  | null, null => true
  | literal value title, literal value' title' => value.same value' && title == title'
  | _, _ => false

end Schema
end DataContract
