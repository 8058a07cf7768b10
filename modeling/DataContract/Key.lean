/-!
# Declared keys and pattern tokens

A declared key may end in one `?`, which marks it optional; the rest is the name that data use.
A token is a name in round brackets and stands for a named schema.

- `Key.name`, `Key.isOptional`: the two parts of a declared key.
- `Token.ofName`, `Token.bare`: a name with and without its brackets.
-/

namespace DataContract
namespace Key

/-- Whether the key is marked optional. -/
def isOptional (key : String) : Bool := key.toList.getLast? == some '?'

/-- The key without its mark. -/
def name (key : String) : String :=
  if isOptional key then String.ofList key.toList.dropLast else key

/-- The key that marks a name optional. -/
def optional (name : String) : String := name ++ "?"

theorem isOptional_optional (key : String) : isOptional (optional key) = true := by
  simp [isOptional, optional]

theorem name_optional (key : String) : name (optional key) = key := by
  simp [name, isOptional_optional]
  simp [optional]

theorem name_of_required {key : String} (h : isOptional key = false) : name key = key := by
  simp [name, h]

example : name "id?" = "id" ∧ name "id" = "id" ∧ name "id??" = "id?" := by decide

end Key

namespace Token

/-- Whether the text stands for a named schema: a name in round brackets. -/
def isToken (text : String) : Bool :=
  text.toList.head? == some '(' && text.toList.getLast? == some ')'

/-- The token of a name; a text that has its brackets already is left alone. -/
def ofName (name : String) : String := if isToken name then name else "(" ++ name ++ ")"

/-- The name inside the brackets; a text without both is left alone. -/
def bare (text : String) : String :=
  if isToken text then String.ofList (text.toList.drop 1).dropLast else text

theorem ofName_of_isToken {text : String} (h : isToken text = true) : ofName text = text := by
  simp [ofName, h]

/-- A token is the name inside it in brackets. -/
theorem brackets_bare {text : String} (h : isToken text = true) :
    "(" ++ bare text ++ ")" = text := by
  apply String.toList_inj.mp
  simp only [bare, h, if_true, String.toList_append, String.toList_ofList]
  simp only [isToken, Bool.and_eq_true, beq_iff_eq] at h
  obtain ⟨first, last⟩ := h
  cases shape : text.toList with
  | nil =>
    rw [shape] at first
    cases first
  | cons c rest =>
    rw [shape] at first last
    cases first
    have inner : rest.getLast? = some ')' := by
      cases rest with
      | nil => exact absurd last (by decide)
      | cons d more => exact List.getLast?_cons_cons ▸ last
    obtain ⟨inside, rfl⟩ := List.getLast?_eq_some_iff.mp inner
    simp

/-- Names that are the same without brackets are the same token. -/
theorem ofName_eq_of_bare_eq {text other : String} (h : bare text = bare other) :
    ofName text = ofName other := by
  have token (text : String) : ofName text = "(" ++ bare text ++ ")" := by
    cases brackets : isToken text with
    | true => rw [ofName_of_isToken brackets, brackets_bare brackets]
    | false => simp [ofName, bare, brackets]
  rw [token, token, h]

example : ofName "Node" = "(Node)" ∧ ofName "(Node)" = "(Node)" := by decide
example : bare "(Node)" = "Node" ∧ bare "(" = "(" ∧ bare "()" = "" := by decide

end Token
end DataContract
