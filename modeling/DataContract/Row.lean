import DataContract.Fields
import DataContract.Key

/-!
# Example rows

Literals that an example binds to field names, and the fields that it leaves out.
-/

namespace DataContract

/-- One row of examples. -/
structure Row where
  fields : Fields String
  omitted : List String
  deriving DecidableEq

namespace Row

/-- A row that says nothing. -/
def empty : Row := ⟨[], []⟩

instance : Inhabited Row := ⟨empty⟩

/-- Binds a literal to a field. -/
def bind (name literal : String) (row : Row) : Row :=
  { row with fields := Fields.put name literal row.fields }

/-- Leaves a field out. -/
def leaveOut (name : String) (row : Row) : Row := { row with omitted := row.omitted ++ [name] }

def isEmpty (row : Row) : Bool := row.fields.isEmpty && row.omitted.isEmpty

/-- The literal bound to a field. -/
def literal? (name : String) (row : Row) : Option String := Fields.find? name row.fields

def binds (name : String) (row : Row) : Bool := (row.literal? name).isSome

def omits (name : String) (row : Row) : Bool := row.omitted.contains name

/-- The entries whose field the row does not leave out. -/
def kept {α : Type} (row : Row) (entries : Fields α) : Fields α :=
  List.filter (fun entry => !row.omits (Key.name entry.1)) entries

end Row
end DataContract
