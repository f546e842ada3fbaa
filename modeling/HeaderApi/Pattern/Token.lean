import HeaderApi.Text.Blank
import HeaderApi.Text.Digit
import HeaderApi.Text.Identifier

/-!
# The pieces of patterns and templates

The text of a pattern or template is read in pieces: characters, and characters behind a
backslash.
-/

namespace HeaderApi

open Text

/-- A table of character names, by which a pattern can write characters.  Results about rules and
their patterns hold for every table. -/
class CharacterNames where
  find? : List Char → Option Char

/-- The table in which no character has a name. -/
instance : CharacterNames where
  find? _ := none

namespace Pattern

/-- A character of a pattern, plain or behind a backslash. -/
inductive Token where
  | plain (c : Char)
  | escape (c : Char)
  deriving DecidableEq, Repr, Inhabited

namespace Token

/-- The text of a piece. -/
def text : Token → List Char
  | .plain c => [c]
  | .escape c => ['\\', c]

/-- The pieces of a text; a backslash may not end it. -/
def ofText? : List Char → Option (List Token)
  | [] => some []
  | ['\\'] => none
  | '\\' :: c :: rest => (ofText? rest).map (.escape c :: ·)
  | c :: rest => (ofText? rest).map (.plain c :: ·)

/-- The first plain characters that satisfy `p`, a number of them at most, and the rest. -/
def takePlain (p : Char → Bool) : Nat → List Token → List Char × List Token
  | n + 1, .plain c :: rest =>
    if p c then
      let (cs, tail) := takePlain p n rest
      (c :: cs, tail)
    else ([], .plain c :: rest)
  | _, tokens => ([], tokens)

/-- The text in front of the first plain mark, and what follows the mark. -/
def until? (mark : Char) : List Token → Option (List Char × List Token)
  | [] => none
  | token :: rest =>
    if token = .plain mark then some ([], rest)
    else (until? mark rest).map fun (text, tail) => (token.text ++ text, tail)

/-- The name in front of the first plain mark, and what follows the mark. -/
def name? (mark : Char) (tokens : List Token) : Option (List Char × List Token) :=
  (until? mark tokens).filter fun found => found.1 ≠ []

/-! ## Numbers -/

/-- A decimal digit of ASCII. -/
def isNumeral (c : Char) : Bool := '0' ≤ c && c ≤ '9'

/-- An octal digit. -/
def isOctal (c : Char) : Bool := '0' ≤ c && c ≤ '7'

/-- A hexadecimal digit. -/
def isHex (c : Char) : Bool := isNumeral c || ('a' ≤ c && c ≤ 'f') || ('A' ≤ c && c ≤ 'F')

/-- The value of a digit; letters continue the decimal digits. -/
def digitValue (c : Char) : Nat :=
  if isNumeral c then c.toNat - '0'.toNat
  else if 'a' ≤ c then c.toNat - 'a'.toNat + 10
  else c.toNat - 'A'.toNat + 10

/-- The number that digits write in a base. -/
def number (base : Nat) (ds : List Char) : Nat :=
  ds.foldl (fun n d => n * base + digitValue d) 0

/-- The value of a decimal digit of any script. -/
def decimalValue? (c : Char) : Option Nat :=
  (digitRanges.find? fun r => r.1 ≤ c.toNat && c.toNat ≤ r.2).map fun r => (c.toNat - r.1) % 10

/-- The number that decimal digits of any script write behind those that are read already; single
underscores may stand between digits. -/
def readDecimal? : Option Nat → List Char → Option Nat
  | held, [] => held
  | held, '_' :: c :: rest => do
    let n ← held
    let d ← decimalValue? c
    readDecimal? (some (n * 10 + d)) rest
  | held, c :: rest => do
    let d ← decimalValue? c
    readDecimal? (some (held.getD 0 * 10 + d)) rest

/-- The number that a text with blanks around it writes, if it is no negative one. -/
def natural? (cs : List Char) : Option Nat :=
  match trim cs with
  | '+' :: ds => readDecimal? none ds
  | '-' :: ds => (readDecimal? none ds).filter (· = 0)
  | ds => readDecimal? none ds

/-- What a name in brackets refers to: a group with this name or with this number. -/
def groupIndex? (names : List (List Char × Nat)) (name : List Char) : Option Nat :=
  if isUnicodeIdentifier name then names.lookup name else natural? name

/-! ## Escapes -/

/-- The character of a letter escape. -/
def controlEscape? : Char → Option Char
  | 'a' => some '\x07'
  | 'f' => some '\x0c'
  | 'n' => some '\n'
  | 'r' => some '\r'
  | 't' => some '\t'
  | 'v' => some '\x0b'
  | '\\' => some '\\'
  | _ => none

/-- The code point that so many hexadecimal digits write, and the rest. -/
def hexCode? (digits : Nat) (tokens : List Token) : Option (Nat × List Token) :=
  let (ds, rest) := takePlain isHex digits tokens
  if ds.length = digits && number 16 ds ≤ 0x10FFFF then some (number 16 ds, rest) else none

/-- The code point of a character name in braces, and the rest. -/
def namedCode? [CharacterNames] : List Token → Option (Nat × List Token)
  | .plain '\x7b' :: rest => do
    let (name, tail) ← name? '\x7d' rest
    let c ← CharacterNames.find? name
    return (c.toNat, tail)
  | _ => none

/-- The code point of an escape that is no sort of characters and no number, and the rest. -/
def codeEscape? [CharacterNames] (c : Char) (rest : List Token) : Option (Nat × List Token) :=
  match controlEscape? c with
  | some d => some (d.toNat, rest)
  | none =>
    if c = 'x' then hexCode? 2 rest
    else if c = 'u' then hexCode? 4 rest
    else if c = 'U' then hexCode? 8 rest
    else if c = 'N' then namedCode? rest
    else if c.isAlpha then none
    else some (c.toNat, rest)

/-- The code point that at most three octal digits write, and the rest. -/
def octalCode? (c : Char) (tokens : List Token) : Option (Nat × List Token) :=
  let (ds, rest) := takePlain isOctal 2 tokens
  if number 8 (c :: ds) ≤ 0o377 then some (number 8 (c :: ds), rest) else none

/-- The number of a group in one or two digits, and the rest. -/
def shortNumber (c : Char) (tokens : List Token) : Nat × List Token :=
  let (ds, rest) := takePlain isNumeral 1 tokens
  (number 10 (c :: ds), rest)

/-- Whether a digit and those behind it write a character and not the number of a group: the digit
is zero, or three octal digits follow each other. -/
def isOctalEscape (c : Char) (tokens : List Token) : Bool :=
  c = '0' || (isOctal c && (takePlain isOctal 2 tokens).1.length = 2)

end Token

end Pattern

end HeaderApi
