import DataContract.Json
import DataContract.Number
import DataContract.Toml

/-!
# Reading TOML

`Toml.read?` reads a document of TOML 1.0. Integers have 64 bits with a sign, one byte order mark
may lead the text, arrays and inline tables stand inside each other less than 80 deep, and a key has
less than 80 parts.
-/

namespace DataContract
namespace Toml

/-! ## Blanks, line ends and comments -/

def skipSpace (text : List Char) : List Char := text.dropWhile fun c => c == ' ' || c == '\t'

/-- Takes one line end off the front. -/
def lineEnd? : List Char → Option (List Char)
  | '\n' :: rest => some rest
  | '\r' :: '\n' :: rest => some rest
  | _ => none

/-- A character that comments and literal strings may hold besides their own marks. -/
def isTextChar (c : Char) : Bool := c == '\t' || (32 ≤ c.toNat && c.toNat != 127)

/-- Takes a comment off the front, if there is one. -/
def skipComment : List Char → List Char
  | '#' :: rest => rest.dropWhile isTextChar
  | text => text

/-- The rest behind a line that ends here, but for blanks and a comment. -/
def endOfLine? (text : List Char) : Option (List Char) :=
  match skipComment (skipSpace text) with
  | [] => some []
  | text => lineEnd? text

/-- Skips blanks, comments and line ends. -/
def skipLines : Nat → List Char → List Char
  | 0, text => text
  | fuel + 1, text =>
    let text := skipComment (skipSpace text)
    match lineEnd? text with
    | some rest => skipLines fuel rest
    | none => text

/-! ## Strings and keys -/

/-- The character of a code point, none for a surrogate or a number beyond them. -/
def charOfCode? (code : Nat) : Option Char :=
  if code < 0xD800 ∨ (0xE000 ≤ code ∧ code < 0x110000) then some (Char.ofNat code) else none

/-- Reads an escape behind its backslash. -/
def readEscape? : List Char → Option (Char × List Char)
  | 'b' :: rest => some (Char.ofNat 8, rest)
  | 't' :: rest => some ('\t', rest)
  | 'n' :: rest => some ('\n', rest)
  | 'f' :: rest => some (Char.ofNat 12, rest)
  | 'r' :: rest => some ('\r', rest)
  | '"' :: rest => some ('"', rest)
  | '\\' :: rest => some ('\\', rest)
  | 'u' :: rest => do
    if rest.length < 4 then none
    else return (← charOfCode? (← Json.natOfHex? (rest.take 4)), rest.drop 4)
  | 'U' :: rest => do
    if rest.length < 8 then none
    else return (← charOfCode? (← Json.natOfHex? (rest.take 8)), rest.drop 8)
  | _ => none

/-- Reads a basic string behind its quote. -/
def readBasic : Nat → List Char → Option (List Char × List Char)
  | 0, _ => none
  | fuel + 1, text =>
    match text with
    | '"' :: rest => some ([], rest)
    | '\\' :: rest => do
      let (c, rest) ← readEscape? rest
      let (cs, rest) ← readBasic fuel rest
      return (c :: cs, rest)
    | c :: rest =>
      if isTextChar c then do
        let (cs, rest) ← readBasic fuel rest
        return (c :: cs, rest)
      else none
    | [] => none

/-- Reads a literal string behind its quote. -/
def readLiteral (text : List Char) : Option (List Char × List Char) :=
  match text.dropWhile fun c => isTextChar c && c != '\'' with
  | '\'' :: rest => some (text.takeWhile fun c => isTextChar c && c != '\'', rest)
  | _ => none

/-- The closing quotes of a string over several lines: three, and up to two more that belong to
its text. -/
def closingQuotes? (quote : Char) (text : List Char) : Option (List Char × List Char) :=
  let quotes := text.takeWhile (· == quote)
  if 3 ≤ quotes.length then
    let inner := min 2 (quotes.length - 3)
    some (List.replicate inner quote, text.drop (inner + 3))
  else none

/-- Skips a line end behind blanks, and all blanks and line ends that follow. -/
def foldedLine? (text : List Char) : Option (List Char) :=
  let rec skipAll : Nat → List Char → List Char
    | 0, text => text
    | fuel + 1, text =>
      match lineEnd? (skipSpace text) with
      | some rest => skipAll fuel rest
      | none => skipSpace text
  (lineEnd? (skipSpace text)).map (skipAll text.length)

/-- Reads a basic string over several lines, behind its quotes. -/
def readBasicLines : Nat → List Char → Option (List Char × List Char)
  | 0, _ => none
  | fuel + 1, text =>
    match closingQuotes? '"' text with
    | some done => some done
    | none =>
      match text with
      | '\\' :: rest =>
        match foldedLine? rest with
        | some rest => readBasicLines fuel rest
        | none => do
          let (c, rest) ← readEscape? rest
          let (cs, rest) ← readBasicLines fuel rest
          return (c :: cs, rest)
      | c :: rest =>
        if isTextChar c then do
          let (cs, rest) ← readBasicLines fuel rest
          return (c :: cs, rest)
        else do
          let (cs, rest) ← readBasicLines fuel (← lineEnd? (c :: rest))
          return ('\n' :: cs, rest)
      | [] => none

/-- Reads a literal string over several lines, behind its quotes. -/
def readLiteralLines : Nat → List Char → Option (List Char × List Char)
  | 0, _ => none
  | fuel + 1, text =>
    match closingQuotes? '\'' text with
    | some done => some done
    | none =>
      match text with
      | c :: rest =>
        if isTextChar c then do
          let (cs, rest) ← readLiteralLines fuel rest
          return (c :: cs, rest)
        else do
          let (cs, rest) ← readLiteralLines fuel (← lineEnd? (c :: rest))
          return ('\n' :: cs, rest)
      | [] => none

/-- A line end right behind the opening quotes does not count. -/
def skipFirstLineEnd (text : List Char) : List Char := (lineEnd? text).getD text

/-- Reads a string of any of the four kinds. -/
def readString? (text : List Char) : Option (String × List Char) := do
  let (cs, rest) ← match text with
    | '"' :: '"' :: '"' :: rest => readBasicLines (rest.length + 1) (skipFirstLineEnd rest)
    | '\'' :: '\'' :: '\'' :: rest => readLiteralLines (rest.length + 1) (skipFirstLineEnd rest)
    | '"' :: rest => readBasic (rest.length + 1) rest
    | '\'' :: rest => readLiteral rest
    | _ => none
  return (String.ofList cs, rest)

def isBareKeyChar (c : Char) : Bool := c.isAlphanum || c == '_' || c == '-'

/-- Reads one part of a key. -/
def readKeyPart? (text : List Char) : Option (String × List Char) :=
  match text with
  | '"' :: rest => (readBasic (rest.length + 1) rest).map fun (cs, rest) => (String.ofList cs, rest)
  | '\'' :: rest => (readLiteral rest).map fun (cs, rest) => (String.ofList cs, rest)
  | text =>
    match text.takeWhile isBareKeyChar with
    | [] => none
    | cs => some (String.ofList cs, text.dropWhile isBareKeyChar)

/-- Reads the parts of a dotted key, at most so many; blanks may stand around the dots and behind
the last part. -/
def readKeyParts? : Nat → List Char → Option (List String × List Char)
  | 0, _ => none
  | most + 1, text => do
    let (part, rest) ← readKeyPart? (skipSpace text)
    match skipSpace rest with
    | '.' :: rest => do
      let (parts, rest) ← readKeyParts? most rest
      return (part :: parts, rest)
    | rest => return ([part], rest)

/-- Arrays and inline tables may stand inside each other this deep, and a key has no more parts. -/
def maxDepth : Nat := 79

/-- Reads a key, dotted or not. -/
def readKey? (text : List Char) : Option (List String × List Char) := readKeyParts? maxDepth text

/-! ## Numbers and dates -/

/-- Takes digits with single underscores between them off the front. -/
def scanDigits (isDigit : Char → Bool) : List Char → Option (List Char × List Char)
  | [] => none
  | c :: rest =>
    if !isDigit c then none
    else
      match rest with
      | '_' :: next => do
        let (digits, rest) ← scanDigits isDigit next
        return (c :: digits, rest)
      | rest =>
        match scanDigits isDigit rest with
        | some (digits, rest) => some (c :: digits, rest)
        | none => some ([c], rest)

/-- Takes decimal digits without a leading zero off the front. -/
def scanDecimal? : List Char → Option (List Char × List Char)
  | '0' :: rest => some (['0'], rest)
  | text => scanDigits Char.isDigit text

/-- The number of digits in a base. -/
def natOfBase? (base : Nat) (digits : List Char) : Option Nat :=
  digits.foldlM (fun n c => do
    let digit ← Json.hexValue? c
    if digit < base then some (base * n + digit) else none) 0

/-- Takes an exponent off the front, if there is one; its mark needs digits behind it. -/
def scanExponent? : List Char → Option (Option (Option Char × List Char) × List Char)
  | c :: rest =>
    if c = 'e' ∨ c = 'E' then do
      let (sign, rest) := Numeral.scanSign rest
      let (digits, rest) ← scanDigits Char.isDigit rest
      return (some (sign, digits), rest)
    else some (none, c :: rest)
  | [] => some (none, [])

/-- Reads a decimal integer or a float. A float beyond the range of a double is refused when it is
positive. -/
def readDecimal? (text : List Char) : Option (Toml × List Char) := do
  let (sign, text) := Numeral.scanSign text
  match text with
  | 'i' :: 'n' :: 'f' :: rest => return (float, rest)
  | 'n' :: 'a' :: 'n' :: rest => return (float, rest)
  | text => do
    let (whole, text) ← scanDecimal? text
    let (fraction, text) ← match text with
      | '.' :: rest => do
        let (digits, rest) ← scanDigits Char.isDigit rest
        pure (some digits, rest)
      | text => some (none, text)
    let (exponent, text) ← scanExponent? text
    let numeral : Numeral := ⟨sign, whole, fraction, exponent⟩
    if numeral.isPlain then
      let n := numeral.toInt
      if Number.minSigned ≤ n ∧ n ≤ Number.maxSigned then return (integer n, text) else none
    else if numeral.negative || numeral.toDecimal.toDouble?.isSome then return (float, text)
    else none

/-- Reads an integer of another base behind its mark. -/
def readBased? (base : Nat) (isDigit : Char → Bool) (text : List Char) :
    Option (Toml × List Char) := do
  let (digits, rest) ← scanDigits isDigit text
  let n ← natOfBase? base digits
  if n ≤ Number.maxSigned then return (integer n, rest) else none

/-- Takes exactly that many digits off the front. -/
def scanFixed? (count : Nat) (text : List Char) : Option (Nat × List Char) :=
  let digits := text.take count
  if digits.length = count ∧ digits.all Char.isDigit then some (natOfDigits digits, text.drop count)
  else none

/-- Days of a month of the Gregorian calendar. -/
def daysOfMonth (year month : Nat) : Nat :=
  if month = 2 then if year % 4 = 0 ∧ (year % 100 ≠ 0 ∨ year % 400 = 0) then 29 else 28
  else if month = 4 ∨ month = 6 ∨ month = 9 ∨ month = 11 then 30
  else 31

/-- Takes a date off the front. -/
def scanDate? (text : List Char) : Option (List Char) := do
  let (year, text) ← scanFixed? 4 text
  let '-' :: text := text | none
  let (month, text) ← scanFixed? 2 text
  let '-' :: text := text | none
  let (day, text) ← scanFixed? 2 text
  if 1 ≤ month ∧ month ≤ 12 ∧ 1 ≤ day ∧ day ≤ daysOfMonth year month then some text else none

/-- Takes a time of day off the front. -/
def scanTime? (text : List Char) : Option (List Char) := do
  let (hour, text) ← scanFixed? 2 text
  let ':' :: text := text | none
  let (minute, text) ← scanFixed? 2 text
  let ':' :: text := text | none
  let (second, text) ← scanFixed? 2 text
  if hour < 24 ∧ minute < 60 ∧ second ≤ 60 then
    match text with
    | '.' :: rest =>
      if (rest.takeWhile Char.isDigit).isEmpty then none else some (rest.dropWhile Char.isDigit)
    | text => some text
  else none

/-- Takes a time zone off the front, if there is one. -/
def skipZone? : List Char → Option (List Char)
  | 'Z' :: rest => some rest
  | 'z' :: rest => some rest
  | '+' :: rest => zone rest
  | '-' :: rest => zone rest
  | text => some text
where
  /-- Hours and minutes of a time zone. -/
  zone (text : List Char) : Option (List Char) := do
    let (hour, text) ← scanFixed? 2 text
    let ':' :: text := text | none
    let (minute, text) ← scanFixed? 2 text
    if hour < 24 ∧ minute < 60 then some text else none

/-- Reads a date, a time, or both. -/
def readDateTime? (text : List Char) : Option (Toml × List Char) :=
  match scanDate? text with
  | some rest =>
    let time := match rest with
      | c :: more =>
        if c = 'T' ∨ c = 't' ∨ c = ' ' then (scanTime? more).bind skipZone? else none
      | [] => none
    some (dateTime, time.getD rest)
  | none => (scanTime? text).map (dateTime, ·)

/-- Reads a number or a date. -/
def readNumber? (text : List Char) : Option (Toml × List Char) :=
  match readDateTime? text with
  | some done => some done
  | none =>
    match text with
    | '0' :: 'x' :: rest => readBased? 16 (fun c => (Json.hexValue? c).isSome) rest
    | '0' :: 'o' :: rest => readBased? 8 (fun c => '0' ≤ c && c ≤ '7') rest
    | '0' :: 'b' :: rest => readBased? 2 (fun c => c == '0' || c == '1') rest
    | text => readDecimal? text

/-! ## Values -/

mutual

/-- Reads a value with at most `depth` containers inside each other. Every step takes a character,
so the length of the text is fuel enough. -/
def readValue? (depth : Nat) : Nat → List Char → Option (Toml × List Char)
  | 0, _ => none
  | fuel + 1, text =>
    match text with
    | '"' :: _ => (readString? text).map fun (s, rest) => (string s, rest)
    | '\'' :: _ => (readString? text).map fun (s, rest) => (string s, rest)
    | 't' :: 'r' :: 'u' :: 'e' :: rest => some (boolean true, rest)
    | 'f' :: 'a' :: 'l' :: 's' :: 'e' :: rest => some (boolean false, rest)
    | '[' :: rest =>
      if depth = 0 then none
      else (readItems? (depth - 1) fuel rest).map fun (items, rest) => (array items, rest)
    | '\x7b' :: rest =>
      if depth = 0 then none
      else
        match skipSpace rest with
        | '\x7d' :: rest => some (inline [], rest)
        | rest => (readEntries? (depth - 1) fuel [] rest).map fun (entries, rest) =>
          (inline entries, rest)
    | text => readNumber? text

/-- Reads the items of an array and its closing bracket; a comma may follow the last one. -/
def readItems? (depth : Nat) : Nat → List Char → Option (List Toml × List Char)
  | 0, _ => none
  | fuel + 1, text =>
    match skipLines text.length text with
    | ']' :: rest => some ([], rest)
    | text => do
      let (item, rest) ← readValue? depth fuel text
      match skipLines rest.length rest with
      | ',' :: rest => do
        let (items, rest) ← readItems? depth fuel rest
        return (item :: items, rest)
      | ']' :: rest => return ([item], rest)
      | _ => none

/-- Reads the entries of an inline table, all on one line, and its closing brace. -/
def readEntries? (depth : Nat) : Nat → Fields Toml → List Char → Option (Fields Toml × List Char)
  | 0, _, _ => none
  | fuel + 1, entries, text => do
    let (key, rest) ← readKey? text
    let '=' :: rest := rest | none
    let (value, rest) ← readValue? depth fuel (skipSpace rest)
    let entries ← putKey? (key.getLast?.getD "") value key.dropLast entries
    match skipSpace rest with
    | ',' :: rest => readEntries? depth fuel entries rest
    | '\x7d' :: rest => return (entries, rest)
    | _ => none

end

/-! ## Documents -/

/-- A document so far, and the table that the next lines belong to. -/
structure Progress where
  document : Fields Toml
  current : List String

/-- Reads one line behind its blanks. -/
def readLine? (progress : Progress) (text : List Char) : Option (Progress × List Char) :=
  match text with
  | '[' :: '[' :: rest => do
    let (path, rest) ← readKey? rest
    let ']' :: ']' :: rest := rest | none
    return (⟨← openItem? path progress.document, path⟩, ← endOfLine? rest)
  | '[' :: rest => do
    let (path, rest) ← readKey? rest
    let ']' :: rest := rest | none
    return (⟨← openTable? path progress.document, path⟩, ← endOfLine? rest)
  | text =>
    match endOfLine? text with
    | some rest => some (progress, rest)
    | none => do
      let (key, rest) ← readKey? text
      let '=' :: rest := rest | none
      let (value, rest) ← readValue? maxDepth (rest.length + 1) (skipSpace rest)
      let change := putKey? (key.getLast?.getD "") value key.dropLast
      return (⟨← modify? change progress.current progress.document, progress.current⟩,
        ← endOfLine? rest)

/-- Reads the lines of a document. -/
def readLines? : Nat → Progress → List Char → Option (Fields Toml)
  | 0, progress, text => if text.isEmpty then some progress.document else none
  | fuel + 1, progress, text =>
    match skipSpace text with
    | [] => some progress.document
    | text => do
      let (progress, rest) ← readLine? progress text
      readLines? fuel progress rest

/-- The entries of a document. -/
def read? (text : String) : Option (Fields Toml) :=
  let text := match text.toList with
    | '\uFEFF' :: rest => rest
    | text => text
  readLines? (text.length + 1) ⟨[], []⟩ text

end Toml
end DataContract
