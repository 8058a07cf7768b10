import DataContract.Number.Decimal

/-!
# JSON texts

`Json` is a JSON text as written: numbers are numerals, and entries keep their order and repeats.
A string with an escape that stands for no character is kept as none, because a reader that skips
the field it stands in never looks at it.

- `Json.read?`: the tree of a text of RFC 8259; only its four blanks count as white space.
- `Json.isNumber`: the numerals that JSON allows.
-/

namespace DataContract

/-- A JSON text as written. -/
inductive Json where
  | null
  | boolean (b : Bool)
  | number (n : Numeral)
  | string (s : Option String)
  | array (items : List Json)
  | object (entries : List (Option String × Json))

namespace Json

/-- The four blanks of JSON. -/
def isBlank (c : Char) : Bool := c == ' ' || c == '\t' || c == '\n' || c == '\r'

def skipBlank (text : List Char) : List Char := text.dropWhile isBlank

/-- The value of a hexadecimal digit in either case. -/
def hexValue? (c : Char) : Option Nat :=
  if c.isDigit then some (c.toNat - '0'.toNat)
  else if 'a' ≤ c ∧ c ≤ 'f' then some (c.toNat - 'a'.toNat + 10)
  else if 'A' ≤ c ∧ c ≤ 'F' then some (c.toNat - 'A'.toNat + 10)
  else none

/-- The number that hexadecimal digits denote. -/
def natOfHex? (digits : List Char) : Option Nat :=
  digits.foldlM (fun n c => (hexValue? c).map (16 * n + ·)) 0

/-- The code that a one-letter escape stands for. -/
def escapeCode? (c : Char) : Option Nat :=
  match c with
  | '"' => some 34
  | '\\' => some 92
  | '/' => some 47
  | 'b' => some 8
  | 'f' => some 12
  | 'n' => some 10
  | 'r' => some 13
  | 't' => some 9
  | _ => none

/-- The codes of a string up to its closing quote, surrogates included, and the text behind it. -/
def scanString : List Char → Option (List Nat × List Char)
  | '"' :: rest => some ([], rest)
  | '\\' :: 'u' :: a :: b :: c :: d :: rest => do
    let code ← natOfHex? [a, b, c, d]
    let (codes, rest) ← scanString rest
    return (code :: codes, rest)
  | '\\' :: c :: rest => do
    let code ← escapeCode? c
    let (codes, rest) ← scanString rest
    return (code :: codes, rest)
  | c :: rest =>
    if c.toNat < 32 ∨ c = '\\' then none
    else do
      let (codes, rest) ← scanString rest
      return (c.toNat :: codes, rest)
  | [] => none

/-- The characters of the codes. A high surrogate needs a low one behind it and the reverse. -/
def charsOfCodes? : List Nat → Option (List Char)
  | [] => some []
  | high :: low :: rest =>
    if 0xD800 ≤ high ∧ high < 0xDC00 then
      if 0xDC00 ≤ low ∧ low < 0xE000 then
        (charsOfCodes? rest).map
          (Char.ofNat (0x10000 + (high - 0xD800) * 0x400 + (low - 0xDC00)) :: ·)
      else none
    else if 0xDC00 ≤ high ∧ high < 0xE000 then none
    else (charsOfCodes? (low :: rest)).map (Char.ofNat high :: ·)
  | [code] => if 0xD800 ≤ code ∧ code < 0xE000 then none else some [Char.ofNat code]

/-- A string up to its closing quote. -/
def readString (text : List Char) : Option (Option String × List Char) := do
  let (codes, rest) ← scanString text
  return ((charsOfCodes? codes).map String.ofList, rest)

/-- A JSON number has no plus sign, no leading zero, and a digit wherever digits may stand. -/
def isNumber (n : Numeral) : Bool :=
  n.sign != some '+' && !n.whole.isEmpty && (n.whole.head? != some '0' || n.whole.length == 1) &&
    n.fraction != some [] && n.exponentComplete

mutual

/-- Reads one value off the front. Every step takes a character, so the length of the text is fuel
enough. -/
def readValue : Nat → List Char → Option (Json × List Char)
  | 0, _ => none
  | fuel + 1, text =>
    match skipBlank text with
    | 'n' :: 'u' :: 'l' :: 'l' :: rest => some (null, rest)
    | 't' :: 'r' :: 'u' :: 'e' :: rest => some (boolean true, rest)
    | 'f' :: 'a' :: 'l' :: 's' :: 'e' :: rest => some (boolean false, rest)
    | '"' :: rest => do
      let (s, rest) ← readString rest
      return (string s, rest)
    | '[' :: rest =>
      match skipBlank rest with
      | ']' :: rest => some (array [], rest)
      | rest => do
        let (items, rest) ← readItems fuel rest
        return (array items, rest)
    | '\x7b' :: rest =>
      match skipBlank rest with
      | '\x7d' :: rest => some (object [], rest)
      | rest => do
        let (entries, rest) ← readEntries fuel rest
        return (object entries, rest)
    | text =>
      let (n, rest) := Numeral.scan text
      if isNumber n then some (number n, rest) else none

/-- Reads the items of an array and its closing bracket. -/
def readItems : Nat → List Char → Option (List Json × List Char)
  | 0, _ => none
  | fuel + 1, text => do
    let (item, rest) ← readValue fuel text
    match skipBlank rest with
    | ',' :: rest => do
      let (items, rest) ← readItems fuel rest
      return (item :: items, rest)
    | ']' :: rest => return ([item], rest)
    | _ => none

/-- Reads the entries of an object and its closing brace. -/
def readEntries : Nat → List Char → Option (List (Option String × Json) × List Char)
  | 0, _ => none
  | fuel + 1, text => do
    let '"' :: rest := skipBlank text | none
    let (key, rest) ← readString rest
    let ':' :: rest := skipBlank rest | none
    let (value, rest) ← readValue fuel rest
    match skipBlank rest with
    | ',' :: rest => do
      let (entries, rest) ← readEntries fuel rest
      return ((key, value) :: entries, rest)
    | '\x7d' :: rest => return ([(key, value)], rest)
    | _ => none

end

/-- The tree of a whole text. -/
def read? (text : String) : Option Json :=
  match readValue (2 * text.length + 2) text.toList with
  | some (json, rest) => if (skipBlank rest).isEmpty then some json else none
  | none => none

/-- Named fields when the object names none of them twice; other fields are skipped. Every key has
to be a text. -/
def namedFields? (known : List String) (entries : List (Option String × Json)) :
    Option (List (String × Json)) := do
  let named ← entries.mapM fun entry => entry.1.map (·, entry.2)
  let fields := named.filter fun entry => known.contains entry.1
  if (fields.map (·.1)).Nodup then some fields else none

end Json
end DataContract
