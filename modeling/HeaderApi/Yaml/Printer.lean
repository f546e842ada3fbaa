import HeaderApi.Text.Quoted
import HeaderApi.Yaml.Plain

/-!
# Printing YAML

Block style with two spaces a level.  A list under a key stands at the column of the key, empty
lists and tables stand on one line, and long scalars are folded.
-/

namespace HeaderApi.Yaml

open Text

/-! ## Styles of scalars -/

/-- How a scalar is written. -/
inductive Style where
  | plain
  | single
  | double
  deriving DecidableEq, Repr, Inhabited

/-- Whether a character can only be written as an escape. -/
def isSpecial (c : Char) : Bool := !(c = '\n' || (0x20 ≤ c.toNat && c.toNat ≤ 0x7E))

/-- Whether a text ends or goes on with a blank. -/
def endsWord : List Char → Bool
  | [] => true
  | c :: _ => c = ' ' || c = '\t' || c = '\n'

/-- The characters that cannot begin a plain scalar in a block. -/
def openingMarks : List Char := "#,[]\x7b\x7d&*!|>'\"%@".toList ++ [Char.ofNat 0x60]

/-- Whether the beginning of a text has a meaning of its own. -/
def isMarkedStart (cs : List Char) : Bool :=
  startsWith ['-', '-', '-'] cs || startsWith ['.', '.', '.'] cs ||
    match cs with
    | [] => false
    | c :: rest =>
      openingMarks.contains c || ((c = '?' || c = ':' || c = '-') && endsWord rest)

/-- Whether a colon in front of a blank or a number sign behind one stands in a text, given the
character in front of it. -/
def hasInnerMark : Char → List Char → Bool
  | _, [] => false
  | before, c :: rest =>
    (c = ':' && endsWord rest) || (c = '#' && endsWord [before]) || hasInnerMark c rest

/-- Whether a blank stands at either end of a text. -/
def hasOuterSpace (cs : List Char) : Bool :=
  cs.head? = some ' ' || cs.getLast? = some ' '

/-- Whether a text can be written without quotes. -/
def allowsPlain (cs : List Char) : Bool :=
  match cs with
  | [] => false
  | c :: rest =>
    !(isMarkedStart cs || hasInnerMark c rest || hasOuterSpace cs ||
      cs.any fun c => c = '\n' || isSpecial c)

/-- Whether a space stands next to an end of line. -/
def hasLooseSpace : List Char → Bool
  | a :: b :: rest =>
    (a = ' ' && b = '\n') || (a = '\n' && b = ' ') || hasLooseSpace (b :: rest)
  | _ => false

/-- Whether a text can be written in single quotes. -/
def allowsSingle (cs : List Char) : Bool := !(hasLooseSpace cs || cs.any isSpecial)

/-- The style of a text. -/
def styleOf (isKey : Bool) (cs : List Char) : Style :=
  if Plain.isText cs && allowsPlain cs then .plain
  else if allowsSingle cs && !(isKey && cs.contains '\n') then .single
  else .double

/-! ## Texts -/

/-- The column behind which a scalar is folded. -/
def bestWidth : Nat := 80

/-- A new line at a column. -/
def newline (column : Nat) : List Char := '\n' :: List.replicate column ' '

/-- Writes characters from a column on, given the one in front of them.  A single space behind the
best width becomes a new line, an end of line is written twice, and so is a quote inside quotes. -/
def foldFrom (quoted : Bool) (indent : Nat) : Option Char → Nat → List Char → List Char
  | _, _, [] => []
  | before, column, c :: rest =>
    if c = '\n' then
      (if before = some '\n' then ['\n'] else ['\n', '\n']) ++
        (if rest.head? = some '\n' then [] else List.replicate indent ' ') ++
        foldFrom quoted indent (some c) indent rest
    else if c = ' ' && before.any (· ≠ ' ') && rest.head?.any (· ≠ ' ') && bestWidth < column then
      newline indent ++ foldFrom quoted indent (some c) indent rest
    else if quoted && c = '\'' then
      '\'' :: '\'' :: foldFrom quoted indent (some c) (column + 2) rest
    else c :: foldFrom quoted indent (some c) (column + 1) rest

/-- The letter of a short escape. -/
def escapeLetter? : Char → Option Char
  | '\x07' => some 'a'
  | '\x08' => some 'b'
  | '\t' => some 't'
  | '\n' => some 'n'
  | '\x0b' => some 'v'
  | '\x0c' => some 'f'
  | '\r' => some 'r'
  | '\x1b' => some 'e'
  | '"' => some '"'
  | '\\' => some '\\'
  | '\x85' => some 'N'
  | '\xa0' => some '_'
  | '\u2028' => some 'L'
  | '\u2029' => some 'P'
  | c => if c.toNat = 0 then some '0' else none

/-- The hexadecimal digits of a number in capitals. -/
def capitalHex (width n : Nat) : List Char := (hexDigits width n).map Char.toUpper

/-- The escape of a character that cannot stand for itself in double quotes. -/
def escape? (c : Char) : Option (List Char) :=
  match escapeLetter? c with
  | some letter => some ['\\', letter]
  | none =>
    if 0x20 ≤ c.toNat && c.toNat ≤ 0x7E then none
    else if c.toNat ≤ 0xFF then some ('\\' :: 'x' :: capitalHex 2 c.toNat)
    else if c.toNat ≤ 0xFFFF then some ('\\' :: 'u' :: capitalHex 4 c.toNat)
    else some ('\\' :: 'U' :: capitalHex 8 c.toNat)

/-- An escaped end of line; a space that follows is escaped as well. -/
def splice (indent : Nat) (spaceFollows : Bool) : List Char × Nat :=
  if spaceFollows then ('\\' :: newline indent ++ ['\\'], indent + 1)
  else ('\\' :: newline indent, indent)

/-- Writes the characters of a text in double quotes.  Behind the best width the text is spliced in
front of a space and around escapes, but neither at its first nor at its last character. -/
def doubleFrom (split : Bool) (indent : Nat) : Bool → Bool → Nat → List Char → List Char
  | _, _, _, [] => []
  | isFirst, afterEscape, column, c :: rest =>
    let isInner := split && !isFirst && rest ≠ []
    match escape? c with
    | some e =>
      let column := column + e.length
      if isInner && bestWidth + 1 < column then
        let (joint, column) := splice indent (rest.head? = some ' ')
        e ++ joint ++ doubleFrom split indent false true column rest
      else e ++ doubleFrom split indent false true column rest
    | none =>
      if isInner && (c = ' ' || afterEscape) && bestWidth < column then
        let (joint, column) := splice indent (c = ' ')
        joint ++ c :: doubleFrom split indent false false (column + 1) rest
      else c :: doubleFrom split indent false false (column + 1) rest

/-- A text that begins at a column; later lines begin at the column `indent`. -/
def textAt (indent column : Nat) (cs : List Char) : List Char :=
  match styleOf false cs with
  | .plain => foldFrom false indent none column cs
  | .single => '\'' :: foldFrom true indent none (column + 1) cs ++ ['\'']
  | .double => '"' :: doubleFrom true indent true true (column + 1) cs ++ ['"']

/-- A text as a key. -/
def keyText (cs : List Char) : List Char :=
  match styleOf true cs with
  | .plain => cs
  | .single => '\'' :: cs.flatMap (fun c => if c = '\'' then [c, c] else [c]) ++ ['\'']
  | .double => '"' :: doubleFrom false 0 true true 0 cs ++ ['"']

/-- A decimal; in front of an exponent there is a point. -/
def decimalText (d : Decimal) : List Char :=
  let cs := d.toText
  if cs.contains '.' then cs else cs.flatMap fun c => if c = 'e' then ".0e".toList else [c]

/-! ## Blocks -/

/-- The longest key that stands in front of its colon. -/
def keyWidth : Nat := 122

/-- Whether a key stands in front of its colon. -/
def isSimpleKey (cs : List Char) : Bool :=
  cs ≠ [] && !cs.contains '\n' && cs.length ≤ keyWidth

/-- A key with its colon. -/
structure KeyPart where
  text : List Char
  /-- The column behind the colon. -/
  column : Nat
  /-- Whether the key stands in front of its colon; otherwise the colon has a line of its own. -/
  isSimple : Bool

/-- The key of a field at a column. -/
def keyPart (indent : Nat) (key : String) : KeyPart :=
  let cs := key.toList
  if isSimpleKey cs then
    ⟨keyText cs ++ [':'], indent + (keyText cs).length + 1, true⟩
  else
    ⟨"? ".toList ++ textAt (indent + 2) (indent + 2) cs ++ newline indent ++ [':'],
      indent + 1, false⟩

mutual

/-- What follows a key or a dash that ends at a column, inside a block at the column `indent`. -/
def content (indent column : Nat) (underKey : Bool) : Value → List Char
  | .null => " null".toList
  | .bool true => " true".toList
  | .bool false => " false".toList
  | .int n => ' ' :: Decimal.intText n
  | .decimal d => ' ' :: decimalText d
  | .text s | .other s => ' ' :: textAt (indent + 2) (column + 1) s.toList
  | .list [] => " []".toList
  | .list (item :: items) =>
    if underKey then itemLines indent (item :: items)
    else " -".toList ++ content (indent + 2) (indent + 3) false item ++ itemLines (indent + 2) items
  | .table [] | .mixed [] => " \x7b\x7d".toList
  | .table ((key, value) :: fields) =>
    if underKey then fieldLines (indent + 2) ((key, value) :: fields)
    else
      let part := keyPart (indent + 2) key
      ' ' :: part.text ++ content (indent + 2) part.column part.isSimple value ++
        fieldLines (indent + 2) fields
  | .mixed ((key, value) :: pairs) =>
    if underKey then pairLines (indent + 2) ((key, value) :: pairs)
    else
      let part := keyPart (indent + 2) key.keyName
      ' ' :: part.text ++ content (indent + 2) part.column part.isSimple value ++
        pairLines (indent + 2) pairs

/-- The items of a list at a column, each on a new line. -/
def itemLines (indent : Nat) : List Value → List Char
  | [] => []
  | item :: items =>
    newline indent ++ '-' :: content indent (indent + 1) false item ++ itemLines indent items

/-- The fields of a table at a column, each on a new line. -/
def fieldLines (indent : Nat) : List (String × Value) → List Char
  | [] => []
  | (key, value) :: fields =>
    let part := keyPart indent key
    newline indent ++ part.text ++ content indent part.column part.isSimple value ++
      fieldLines indent fields

/-- The pairs of a mixed table at a column, each on a new line. -/
def pairLines (indent : Nat) : List (Value × Value) → List Char
  | [] => []
  | (key, value) :: pairs =>
    let part := keyPart indent key.keyName
    newline indent ++ part.text ++ content indent part.column part.isSimple value ++
      pairLines indent pairs

end

/-- Whether a value is written as a plain scalar, which leaves a document open. -/
def isOpenEnded : Value → Bool
  | .text s | .other s => styleOf false s.toList = .plain
  | .list _ | .table _ | .mixed _ => false
  | _ => true

/-- The text of a value as a document. -/
def print (value : Value) : String :=
  let body := match value with
    | .list (item :: items) => (itemLines 0 (item :: items)).drop 1
    | .table (field :: fields) => (fieldLines 0 (field :: fields)).drop 1
    | .mixed (pair :: pairs) => (pairLines 0 (pair :: pairs)).drop 1
    | value => (content 0 0 false value).drop 1
  String.ofList (body ++ '\n' :: if isOpenEnded value then "...\n".toList else [])

end HeaderApi.Yaml
