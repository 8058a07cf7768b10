import DataContract.Fields
import DataContract.Number

/-!
# Values

The data that requests and responses carry. The keys of an object are distinct and in order; the
order of keys does not count when values are compared (`Value.same`).
-/

namespace DataContract

/-- JSON-like data. -/
inductive Value where
  | null
  | boolean (b : Bool)
  | number (n : Number)
  | string (s : String)
  | array (items : List Value)
  | object (entries : List (String × Value))

namespace Value

instance : Inhabited Value := ⟨null⟩

/-- An integer as data. -/
def integer (n : Int) : Value := number (.integer n)

/-- An object with these entries; a repeated key keeps its first place and its last value. -/
def ofEntries (pairs : List (String × Value)) : Value := object (Fields.ofList pairs)

def isNull : Value → Bool
  | null => true
  | _ => false

/-- Neither an array nor an object. -/
def isScalar : Value → Bool
  | array _ => false
  | object _ => false
  | _ => true

def asString? : Value → Option String
  | string s => some s
  | _ => none

def asNumber? : Value → Option Number
  | number n => some n
  | _ => none

def asArray? : Value → Option (List Value)
  | array items => some items
  | _ => none

def asObject? : Value → Option (Fields Value)
  | object entries => some entries
  | _ => none

mutual

/-- The same data: arrays item by item in order, objects key by key in any order. -/
def same : Value → Value → Bool
  | null, null => true
  | boolean a, boolean b => a == b
  | number a, number b => a.same b
  | string a, string b => a == b
  | array a, array b => sameItems a b
  | object a, object b => a.length == b.length && sameEntries a b
  | _, _ => false

/-- The same items in the same order. -/
def sameItems : List Value → List Value → Bool
  | [], [] => true
  | a :: as, b :: bs => same a b && sameItems as bs
  | _, _ => false

/-- Every entry has a counterpart with the same data. -/
def sameEntries : List (String × Value) → List (String × Value) → Bool
  | [], _ => true
  | (key, a) :: rest, others =>
    (match Fields.find? key others with
      | some b => same a b
      | none => false) && sameEntries rest others

end

/-- The same literal: numbers by magnitude, everything else as data. -/
def sameLiteral : Value → Value → Bool
  | number a, number b => a.close b
  | a, b => same a b

mutual

/-- Number of nodes. -/
def size : Value → Nat
  | array items => sizeItems items + 1
  | object entries => sizeEntries entries + 1
  | _ => 1

def sizeItems : List Value → Nat
  | [] => 0
  | item :: rest => size item + sizeItems rest

def sizeEntries : List (String × Value) → Nat
  | [] => 0
  | (_, value) :: rest => size value + sizeEntries rest

end

/-- Walks a dotted path through nested objects; empty segments count for nothing. -/
def select (path : String) (v : Value) : Option Value :=
  ((path.toList.splitOn '.').filter (· ≠ [])).foldlM (fun current segment =>
    match current with
    | object entries => Fields.find? (String.ofList segment) entries
    | _ => none) v

end Value
end DataContract
