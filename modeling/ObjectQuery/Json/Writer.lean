import ObjectQuery.Json.Basic
import ObjectQuery.Decimal.Layout

/-!
# Writing JSON text

Two forms: compact, without any blank, and indented by two spaces with one
item or member to a line, in which an empty array or object stays on its
line. In strings the quote, the backslash and the control characters are
escaped and nothing else is.
-/

namespace ObjectQuery.Json

/-! ## Scalars -/

/-- A hexadecimal digit, in lower case. -/
def hexDigit (n : Nat) : Char :=
  Nat.digitChar n

/-- One character inside a string literal. -/
def escapeChar (c : Char) : List Char :=
  if c = '"' then ['\\', '"']
  else if c = '\\' then ['\\', '\\']
  else if c = '\x08' then ['\\', 'b']
  else if c = '\x0c' then ['\\', 'f']
  else if c = '\n' then ['\\', 'n']
  else if c = '\r' then ['\\', 'r']
  else if c = '\t' then ['\\', 't']
  else if c.toNat < 0x20 then
    ['\\', 'u', '0', '0', hexDigit (c.toNat / 16), hexDigit (c.toNat % 16)]
  else [c]

/-- A string literal. -/
def quote (s : String) : String :=
  String.ofList ('"' :: (s.toList.flatMap escapeChar ++ ['"']))

/-- A double; one that is not finite has no numeral and is written as
null. -/
def floatText (x : Float) : String :=
  if x.isFinite then Decimal.Layout.json.text x else "null"

/-- The text of a boolean. -/
def boolText (b : Bool) : String :=
  if b then "true" else "false"

/-! ## Compact form -/

mutual

/-- The compact text of a value. -/
def compact : Json → String
  | .null => "null"
  | .bool b => boolText b
  | .integer n => toString n
  | .float x => floatText x
  | .string s => quote s
  | .array items => "[" ++ ",".intercalate (compactItems items) ++ "]"
  | .object members => "\x7b" ++ ",".intercalate (compactMembers members) ++ "\x7d"

/-- The compact texts of the items of an array. -/
def compactItems : List Json → List String
  | [] => []
  | item :: rest => item.compact :: compactItems rest

/-- The compact texts of the members of an object. -/
def compactMembers : List (String × Json) → List String
  | [] => []
  | (name, value) :: rest => (quote name ++ ":" ++ value.compact) :: compactMembers rest

end

/-! ## Indented form -/

/-- A line break and the indentation of the line after it. -/
def newLine (depth : Nat) : String :=
  String.ofList ('\n' :: List.replicate (2 * depth) ' ')

/-- Parts of an array or object, each on a line of its own. -/
def block (opening closing : String) (depth : Nat) (parts : List String) : String :=
  if parts.isEmpty then opening ++ closing
  else
    opening ++ newLine (depth + 1) ++ ("," ++ newLine (depth + 1)).intercalate parts ++
      newLine depth ++ closing

mutual

/-- The indented text of a value that begins on a line at `depth`. -/
def indentedAt (depth : Nat) : Json → String
  | .array items => block "[" "]" depth (indentedItems (depth + 1) items)
  | .object members => block "\x7b" "\x7d" depth (indentedMembers (depth + 1) members)
  | .null => "null"
  | .bool b => boolText b
  | .integer n => toString n
  | .float x => floatText x
  | .string s => quote s

/-- The indented texts of the items of an array. -/
def indentedItems (depth : Nat) : List Json → List String
  | [] => []
  | item :: rest => item.indentedAt depth :: indentedItems depth rest

/-- The indented texts of the members of an object. -/
def indentedMembers (depth : Nat) : List (String × Json) → List String
  | [] => []
  | (name, value) :: rest =>
    (quote name ++ ": " ++ value.indentedAt depth) :: indentedMembers depth rest

end

/-- The indented text of a value. -/
def indented (j : Json) : String :=
  j.indentedAt 0

end ObjectQuery.Json
