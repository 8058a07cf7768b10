import DataContract.Fields

/-!
# TOML documents

What a TOML document says, as far as settings need it: floats and dates are known by their kind
only. A table remembers how it came about, because that decides how it may grow.

- `Toml.putKey?`: a key, dotted or not, put into a table.
- `Toml.openTable?`, `Toml.openItem?`: what a `[table]` or `[[table]]` line does.
- `Toml.modify?`: what the lines below such a line do.

No name is defined twice, and a table whose line has been written grows only below that line.
-/

namespace DataContract

/-- How a table came about. -/
inductive Toml.Origin where
  /-- By its own line. -/
  | line
  /-- By the line of a table inside it. -/
  | implied
  /-- By a dotted key. -/
  | dotted
  deriving DecidableEq

/-- A TOML value. -/
inductive Toml where
  | string (s : String)
  | integer (n : Int)
  | boolean (b : Bool)
  | float
  | dateTime
  | array (items : List Toml)
  | inline (entries : List (String × Toml))
  | table (origin : Toml.Origin) (entries : List (String × Toml))
  | tables (items : List (List (String × Toml)))

namespace Toml

/-- Puts a value under a dotted key. Only tables that no line has written may be entered, and the
last of them has to come from dotted keys. -/
def putKey? (key : String) (value : Toml) : List String → Fields Toml → Option (Fields Toml)
  | [], entries =>
    if (Fields.find? key entries).isSome then none else some (entries ++ [(key, value)])
  | name :: path, entries =>
    match Fields.find? name entries with
    | none => do return entries ++ [(name, table .dotted (← putKey? key value path []))]
    | some (table origin inner) =>
      if origin = .line ∨ (path = [] ∧ origin ≠ .dotted) then none
      else do return Fields.put name (table origin (← putKey? key value path inner)) entries
    | some (tables items) =>
      match path, items.getLast? with
      | [], _ => none
      | _, none => none
      | path, some inner => do
        return Fields.put name (tables (items.dropLast ++ [← putKey? key value path inner])) entries
    | some _ => none

/-- Changes the table at the end of a path of table names, where the last name is up to `last`. A
missing table on the way is implied; of a list of tables the last one is meant. -/
def descend? (last : String → Fields Toml → Option (Fields Toml)) :
    List String → Fields Toml → Option (Fields Toml)
  | [], _ => none
  | [name], entries => last name entries
  | name :: path, entries =>
    match Fields.find? name entries with
    | none => do return entries ++ [(name, table .implied (← descend? last path []))]
    | some (table origin inner) => do
      return Fields.put name (table origin (← descend? last path inner)) entries
    | some (tables items) =>
      match items.getLast? with
      | none => none
      | some inner => do
        return Fields.put name (tables (items.dropLast ++ [← descend? last path inner])) entries
    | some _ => none

/-- What a `[table]` line does: the table is new, or was only implied so far. -/
def openTable? : List String → Fields Toml → Option (Fields Toml) :=
  descend? fun name entries =>
    match Fields.find? name entries with
    | none => some (entries ++ [(name, table .line [])])
    | some (table .implied inner) => some (Fields.put name (table .line inner) entries)
    | some _ => none

/-- What a `[[table]]` line does: the list of tables gets another item. -/
def openItem? : List String → Fields Toml → Option (Fields Toml) :=
  descend? fun name entries =>
    match Fields.find? name entries with
    | none => some (entries ++ [(name, tables [[]])])
    | some (tables items) => some (Fields.put name (tables (items ++ [[]])) entries)
    | some _ => none

/-- Changes the table at a path; the empty path is the document itself. -/
def modify? (change : Fields Toml → Option (Fields Toml)) (path : List String)
    (document : Fields Toml) : Option (Fields Toml) :=
  if path = [] then change document
  else
    descend? (fun name entries =>
      match Fields.find? name entries with
      | some (table origin inner) => do
        return Fields.put name (table origin (← change inner)) entries
      | some (tables items) =>
        match items.getLast? with
        | some inner => do
          return Fields.put name (tables (items.dropLast ++ [← change inner])) entries
        | none => none
      | _ => none) path document

end Toml
end DataContract
