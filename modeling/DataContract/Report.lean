import DataContract.Failure
import DataContract.Value.Text

/-!
# Reports

A report is a failure tree flattened: one entry per leaf with its rendered path.

- `Report.ofFailure`: one entry per leaf, in tree order.
- `Report.text`: the report for a reader.
- `Report.toValue`: the report as data; an empty path is left out.
- `Report.schema`: a JSON schema of that data.
-/

namespace DataContract

/-- One leaf failure: its rendered path, and the messages from the outermost down to it. -/
structure Report.Entry where
  path : String
  messages : List String
  deriving DecidableEq

/-- Flattened view of a failure tree. -/
structure Report where
  entries : List Report.Entry
  deriving DecidableEq

namespace Report

/-- The entry of a leaf. -/
def Entry.ofLeaf (leaf : Leaf) : Entry := ⟨renderPath leaf.path, leaf.messages⟩

/-- One entry per leaf, in tree order. -/
def ofFailure (failure : Failure) : Report := ⟨failure.leaves.map Entry.ofLeaf⟩

/-- The path behind `>>`, a blank line, and the indented messages. -/
def Entry.text (entry : Entry) : String :=
  let messages := "\n".intercalate (entry.messages.map ("   " ++ ·))
  if entry.path = "" then messages else ">> " ++ entry.path ++ "\n\n" ++ messages

/-- The entries for a reader, a blank line between two. -/
def text (report : Report) : String := "\n\n".intercalate (report.entries.map Entry.text)

def Entry.toValue (entry : Entry) : Value :=
  let messages := ("messages", Value.array (entry.messages.map Value.string))
  .object (if entry.path = "" then [messages] else [("path", .string entry.path), messages])

/-- The report as data. -/
def toValue (report : Report) : Value :=
  .object [("entries", .array (report.entries.map Entry.toValue))]

/-- A JSON schema of reports as data. -/
def schema : Value :=
  let typed (kind description : String) (rest : List (String × Value)) :=
    Value.object ([("type", .string kind), ("description", .string description)] ++ rest)
  .object [("$schema", .string "https://json-schema.org/draft/2020-12/schema"),
    ("title", .string "FailureReport"),
    ("description", .string "Flattened view of a failure tree."),
    ("type", .string "object"),
    ("properties", .object [("entries", typed "array" "One entry per leaf failure, in tree order"
      [("items", .object [("$ref", .string "#/$defs/ReportEntry")])])]),
    ("required", .array [.string "entries"]),
    ("$defs", .object [("ReportEntry", typed "object" "A single leaf failure." [
      ("properties", .object [
        ("path", typed "string"
          "Dotted breadcrumb path: \"QUERY-PARAMS.ids\", \"RESPONSE.HEADERS.Header1\"" []),
        ("messages", typed "array" "Messages from the outermost context down to the leaf"
          [("items", .object [("type", .string "string")])])]),
      ("required", .array [.string "messages"])])])]

end Report

/-- The rendered path and the messages of every leaf. -/
def Failure.entries (failure : Failure) : List Report.Entry := (Report.ofFailure failure).entries

/-- The rendered paths of the leaves. -/
def Failure.paths (failure : Failure) : List String := failure.entries.map (·.path)

end DataContract
