import HeaderApi.Text.Quoted
import HeaderApi.Data.Value

/-!
# Printing JSON

Indented JSON with two spaces a level and empty containers on one line, in two styles: ASCII
only, or with every character beyond the controls as itself.  The compact form stands on one line.
-/

namespace HeaderApi.Json

open Text

/-- What a printer writes as an escape. -/
inductive Style where
  /-- Every character outside printable ASCII is escaped. -/
  | ascii
  /-- Only quotes, backslashes and controls are escaped. -/
  | unicode
  deriving DecidableEq, Repr, Inhabited

/-- A code unit as an escape. -/
def unitEscape (n : Nat) : List Char := '\\' :: 'u' :: hexDigits 4 n

/-- A character as one escape, or as a surrogate pair of escapes. -/
def charEscape (c : Char) : List Char :=
  if c.toNat < 0x10000 then unitEscape c.toNat
  else
    let n := c.toNat - 0x10000
    unitEscape (0xD800 + n / 0x400) ++ unitEscape (0xDC00 + n % 0x400)

/-- One character of a text. -/
def charText (style : Style) (c : Char) : List Char :=
  if c = '"' then ['\\', '"']
  else if c = '\\' then ['\\', '\\']
  else if c = '\n' then ['\\', 'n']
  else if c = '\r' then ['\\', 'r']
  else if c = '\t' then ['\\', 't']
  else if c = '\x08' then ['\\', 'b']
  else if c = '\x0c' then ['\\', 'f']
  else if c.toNat < 0x20 then unitEscape c.toNat
  else if style = .ascii && 0x7E < c.toNat then charEscape c
  else [c]

/-- A text in quotes. -/
def textText (style : Style) (s : String) : List Char :=
  '"' :: s.toList.flatMap (charText style) ++ ['"']

/-- The beginning of a line at the given level. -/
def newline (level : Nat) : List Char := '\n' :: List.replicate (2 * level) ' '

mutual

/-- A value whose lines after the first are indented at the given level. -/
def indented (style : Style) (level : Nat) : Value → List Char
  | .null => "null".toList
  | .bool true => "true".toList
  | .bool false => "false".toList
  | .int n => Decimal.intText n
  | .decimal d => d.toText
  | .text s | .other s => textText style s
  | .list [] => "[]".toList
  | .list (item :: items) =>
    '[' :: newline (level + 1) ++ indented style (level + 1) item ++
      indentedItems style (level + 1) items ++ newline level ++ [']']
  | .table [] => "\x7b\x7d".toList
  | .table ((key, value) :: fields) =>
    '\x7b' :: newline (level + 1) ++ textText style key ++ ": ".toList ++
      indented style (level + 1) value ++ indentedFields style (level + 1) fields ++
      newline level ++ ['\x7d']
  | .mixed [] => "\x7b\x7d".toList
  | .mixed ((key, value) :: pairs) =>
    '\x7b' :: newline (level + 1) ++ textText style key.keyName ++ ": ".toList ++
      indented style (level + 1) value ++ indentedPairs style (level + 1) pairs ++
      newline level ++ ['\x7d']

/-- The items of a list after the first. -/
def indentedItems (style : Style) (level : Nat) : List Value → List Char
  | [] => []
  | item :: items =>
    ',' :: newline level ++ indented style level item ++ indentedItems style level items

/-- The fields of a table after the first. -/
def indentedFields (style : Style) (level : Nat) : List (String × Value) → List Char
  | [] => []
  | (key, value) :: fields =>
    ',' :: newline level ++ textText style key ++ ": ".toList ++ indented style level value ++
      indentedFields style level fields

/-- The pairs of a mixed table after the first. -/
def indentedPairs (style : Style) (level : Nat) : List (Value × Value) → List Char
  | [] => []
  | (key, value) :: pairs =>
    ',' :: newline level ++ textText style key.keyName ++ ": ".toList ++
      indented style level value ++
      indentedPairs style level pairs

end

/-- The indented text of a value. -/
def pretty (style : Style) (value : Value) : String := String.ofList (indented style 0 value)

/-! ## One line -/

mutual

/-- A value on one line. -/
def compactText : Value → List Char
  | .null => "null".toList
  | .bool true => "true".toList
  | .bool false => "false".toList
  | .int n => Decimal.intText n
  | .decimal d => d.toText
  | .text s | .other s => textText .ascii s
  | .list items => '[' :: compactItems items ++ [']']
  | .table fields => '\x7b' :: compactFields fields ++ ['\x7d']
  | .mixed pairs => '\x7b' :: compactPairs pairs ++ ['\x7d']

/-- Items with commas between them. -/
def compactItems : List Value → List Char
  | [] => []
  | [item] => compactText item
  | item :: items => compactText item ++ ',' :: compactItems items

/-- Fields with commas between them. -/
def compactFields : List (String × Value) → List Char
  | [] => []
  | [(key, value)] => textText .ascii key ++ ':' :: compactText value
  | (key, value) :: fields =>
    textText .ascii key ++ ':' :: compactText value ++ ',' :: compactFields fields

/-- Pairs with commas between them. -/
def compactPairs : List (Value × Value) → List Char
  | [] => []
  | [(key, value)] => textText .ascii key.keyName ++ ':' :: compactText value
  | (key, value) :: pairs =>
    textText .ascii key.keyName ++ ':' :: compactText value ++ ',' :: compactPairs pairs

end

/-- The text of a value on one line. -/
def compact (value : Value) : String := String.ofList (compactText value)

end HeaderApi.Json
