import HeaderApi.Text.Scan
import HeaderApi.Data.Value

/-!
# Reading JSON

A reader for whole JSON texts.  A key that occurs twice in an object keeps its first place and its
last value.  The words for numbers that are not finite are accepted.
-/

namespace HeaderApi.Json

open Text

/-- The white space of JSON. -/
def isSpace (c : Char) : Bool := c = ' ' || c = '\t' || c = '\n' || c = '\r'

/-- Drops the white space in front. -/
def skipSpace (cs : List Char) : List Char := cs.dropWhile isSpace

/-! ## Texts -/

/-- The value of a hexadecimal digit. -/
def hexValue? (c : Char) : Option Nat :=
  if '0' ≤ c && c ≤ '9' then some (c.toNat - '0'.toNat)
  else if 'a' ≤ c && c ≤ 'f' then some (c.toNat - 'a'.toNat + 10)
  else if 'A' ≤ c && c ≤ 'F' then some (c.toNat - 'A'.toNat + 10)
  else none

/-- The code unit of four hexadecimal digits. -/
def codeUnit? (a b c d : Char) : Option Nat := do
  return ((← hexValue? a) * 16 + (← hexValue? b)) * 256 + ((← hexValue? c) * 16 + (← hexValue? d))

/-- The character that a one-letter escape stands for. -/
def escaped? : Char → Option Char
  | '"' => some '"'
  | '\\' => some '\\'
  | '/' => some '/'
  | 'b' => some '\x08'
  | 'f' => some '\x0c'
  | 'n' => some '\n'
  | 'r' => some '\r'
  | 't' => some '\t'
  | _ => none

/-- The code units of a text up to its closing quote, and what follows the quote. -/
def readUnits : List Char → Option (List Nat × List Char)
  | [] => none
  | '"' :: rest => some ([], rest)
  | '\\' :: 'u' :: a :: b :: c :: d :: rest => do
    let unit ← codeUnit? a b c d
    let (units, tail) ← readUnits rest
    return (unit :: units, tail)
  | '\\' :: c :: rest => do
    let e ← escaped? c
    let (units, tail) ← readUnits rest
    return (e.toNat :: units, tail)
  | c :: rest =>
    if c = '\\' || c.toNat < 0x20 then none
    else do
      let (units, tail) ← readUnits rest
      return (c.toNat :: units, tail)

/-- Joins the halves of a surrogate pair. -/
def joinSurrogates : List Nat → List Char
  | [] => []
  | [unit] => [Char.ofNat unit]
  | high :: low :: rest =>
    if 0xD800 ≤ high && high < 0xDC00 && 0xDC00 ≤ low && low < 0xE000 then
      Char.ofNat (0x10000 + (high - 0xD800) * 0x400 + (low - 0xDC00)) :: joinSurrogates rest
    else Char.ofNat high :: joinSurrogates (low :: rest)

/-- A text up to its closing quote, and what follows the quote. -/
def readText (cs : List Char) : Option (String × List Char) :=
  (readUnits cs).map fun (units, rest) => (String.ofList (joinSurrogates units), rest)

/-! ## Numbers -/

/-- An ASCII digit. -/
def isDigit (c : Char) : Bool := '0' ≤ c && c ≤ '9'

/-- The number that digits write. -/
def natOfDigits (ds : List Char) : Nat :=
  ds.foldl (fun n d => n * 10 + (d.toNat - '0'.toNat)) 0

/-- The digits of a whole number without a leading zero, and the rest. -/
def readWhole : List Char → Option (List Char × List Char)
  | '0' :: rest => some (['0'], rest)
  | cs => if (cs.takeWhile isDigit).isEmpty then none
    else some (cs.takeWhile isDigit, cs.dropWhile isDigit)

/-- The digits after a point, if there are any, and the rest. -/
def readFraction : List Char → Option (List Char) × List Char
  | '.' :: cs => if (cs.takeWhile isDigit).isEmpty then (none, '.' :: cs)
    else (some (cs.takeWhile isDigit), cs.dropWhile isDigit)
  | cs => (none, cs)

/-- The digits of an exponent behind its sign. -/
def readPower (negative : Bool) (cs : List Char) : Option (Int × List Char) :=
  if (cs.takeWhile isDigit).isEmpty then none
  else
    let n : Int := natOfDigits (cs.takeWhile isDigit)
    some (if negative then -n else n, cs.dropWhile isDigit)

/-- The exponent behind an `e`, if there is one, and the rest. -/
def readExponent : List Char → Option Int × List Char
  | [] => (none, [])
  | e :: cs =>
    if e = 'e' || e = 'E' then
      let power := match cs with
        | '-' :: ds => readPower true ds
        | '+' :: ds => readPower false ds
        | ds => readPower false ds
      match power with
      | some (n, rest) => (some n, rest)
      | none => (none, e :: cs)
    else (none, e :: cs)

/-- A number without its sign: an integer, or a decimal when it has a fraction or an exponent. -/
def readUnsigned (negative : Bool) (cs : List Char) : Option (Value × List Char) := do
  let (whole, rest) ← readWhole cs
  let (fraction, rest) := readFraction rest
  let (exponent, rest) := readExponent rest
  let sign : Int := if negative then -1 else 1
  if fraction.isNone && exponent.isNone then
    return (.int (sign * natOfDigits whole), rest)
  else
    let places := fraction.getD []
    let mantissa : Int := natOfDigits (whole ++ places)
    return (.decimal ⟨sign * mantissa, exponent.getD 0 - places.length⟩, rest)

/-- A number and the rest. -/
def readNumber : List Char → Option (Value × List Char)
  | '-' :: 'I' :: cs => (after? "nfinity".toList cs).map fun tail => (.other "-Infinity", tail)
  | '-' :: cs => readUnsigned true cs
  | cs => readUnsigned false cs

/-! ## Values -/

mutual

/-- A value at the front of a text, and the rest.  The fuel bounds the number of nested reads. -/
def readValue : Nat → List Char → Option (Value × List Char)
  | 0, _ => none
  | fuel + 1, cs =>
    match skipSpace cs with
    | '"' :: rest => (readText rest).map fun (s, tail) => (.text s, tail)
    | '[' :: rest =>
      match skipSpace rest with
      | ']' :: tail => some (.list [], tail)
      | _ => (readItems fuel rest).map fun (items, tail) => (.list items, tail)
    | '\x7b' :: rest =>
      match skipSpace rest with
      | '\x7d' :: tail => some (.table [], tail)
      | _ => (readFields fuel rest).map fun (pairs, tail) => (.table (Keyed.ofPairs pairs), tail)
    | 'n' :: rest => (after? "ull".toList rest).map fun tail => (.null, tail)
    | 't' :: rest => (after? "rue".toList rest).map fun tail => (.bool true, tail)
    | 'f' :: rest => (after? "alse".toList rest).map fun tail => (.bool false, tail)
    | 'N' :: rest => (after? "aN".toList rest).map fun tail => (.other "NaN", tail)
    | 'I' :: rest => (after? "nfinity".toList rest).map fun tail => (.other "Infinity", tail)
    | rest => readNumber rest

/-- The items of a list up to its closing bracket, and the rest. -/
def readItems : Nat → List Char → Option (List Value × List Char)
  | 0, _ => none
  | fuel + 1, cs => do
    let (item, rest) ← readValue fuel cs
    match skipSpace rest with
    | ',' :: rest => do
      let (items, tail) ← readItems fuel rest
      return (item :: items, tail)
    | ']' :: tail => return ([item], tail)
    | _ => none

/-- The fields of an object up to its closing brace, and the rest. -/
def readFields : Nat → List Char → Option (List (String × Value) × List Char)
  | 0, _ => none
  | fuel + 1, cs =>
    match skipSpace cs with
    | '"' :: rest => do
      let (key, rest) ← readText rest
      match skipSpace rest with
      | ':' :: rest => do
        let (value, rest) ← readValue fuel rest
        match skipSpace rest with
        | ',' :: rest => do
          let (fields, tail) ← readFields fuel rest
          return ((key, value) :: fields, tail)
        | '\x7d' :: tail => return ([(key, value)], tail)
        | _ => none
      | _ => none
    | _ => none

end

/-- The value of a whole JSON text. -/
def parse? (text : List Char) : Option Value := do
  let (value, rest) ← readValue (text.length + 1) text
  if skipSpace rest = [] then some value else none

end HeaderApi.Json
