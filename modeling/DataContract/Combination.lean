import DataContract.Enumeration
import DataContract.Row

/-!
# Combinations of optional keys

`keyCombinations` lists the sets of keys that test cases are made from. Without an example row these
are all keys and the required keys alone. With one, a key that is required or bound by the row is
always there, and every other key is both left out and put in.
-/

namespace DataContract

/-- Whether a row leaves it open that a key is present. -/
def Row.leavesOpen (row : Row) (key : String) : Bool :=
  Key.isOptional key && !row.binds (Key.name key)

/-- Every set of keys to make test cases from, each in declared order. -/
def keyCombinations (keys : List String) (row : Row) : Enumeration (List String) :=
  if row.isEmpty then
    let required := keys.filter fun key => !Key.isOptional key
    if required.length = keys.length then .single keys else .ofList [keys, required]
  else
    (Enumeration.product (keys.map fun key => fun _ =>
      Enumeration.ofList (if row.leavesOpen key then [none, some key] else [some key]))).map
        fun choice => choice.filterMap id

end DataContract
