import HeaderApi.Data.Value
import HeaderApi.Text.Scan

/-!
# What a plain scalar means

A scalar without quotes is a text unless it has the form of null, a truth value, a number or a
date.
-/

namespace HeaderApi.Yaml.Plain

open Text

/-! ## Words -/

/-- The spellings of null. -/
def nullWords : List String := ["", "~", "null", "Null", "NULL"]

/-- The spellings of true. -/
def trueWords : List String := ["yes", "Yes", "YES", "true", "True", "TRUE", "on", "On", "ON"]

/-- The spellings of false. -/
def falseWords : List String := ["no", "No", "NO", "false", "False", "FALSE", "off", "Off", "OFF"]

/-- The value of a word. -/
def word? (cs : List Char) : Option Value :=
  let s := String.ofList cs
  if nullWords.contains s then some .null
  else if trueWords.contains s then some (.bool true)
  else if falseWords.contains s then some (.bool false)
  else none

/-! ## Digits -/

/-- A decimal digit. -/
def isDigit (c : Char) : Bool := '0' ≤ c && c ≤ '9'

/-- A decimal digit or an underscore between digits. -/
def isSpacedDigit (c : Char) : Bool := isDigit c || c = '_'

/-- The value of a digit; letters continue the decimal digits. -/
def digitValue (c : Char) : Nat :=
  if isDigit c then c.toNat - '0'.toNat
  else if 'a' ≤ c && c ≤ 'f' then c.toNat - 'a'.toNat + 10
  else if 'A' ≤ c && c ≤ 'F' then c.toNat - 'A'.toNat + 10
  else 0

/-- A hexadecimal digit. -/
def isHex (c : Char) : Bool :=
  isDigit c || ('a' ≤ c && c ≤ 'f') || ('A' ≤ c && c ≤ 'F')

/-- The number that digits write in a base; underscores do not count. -/
def number (base : Nat) (cs : List Char) : Nat :=
  (cs.filter (· ≠ '_')).foldl (fun n c => n * base + digitValue c) 0

/-- A place of a number in base sixty. -/
def isSixtieth : List Char → Bool
  | [a] => isDigit a
  | [a, b] => '0' ≤ a && a ≤ '5' && isDigit b
  | _ => false

/-! ## Numbers -/

/-- A sign and what follows it. -/
def signed : List Char → Int × List Char
  | '-' :: cs => (-1, cs)
  | '+' :: cs => (1, cs)
  | cs => (1, cs)

/-- Whether a number in base ten begins with a digit other than zero. -/
def isWhole : List Char → Bool
  | [] => false
  | c :: cs => isDigit c && c ≠ '0' && cs.all isSpacedDigit

/-- An integer without its sign: binary, hexadecimal, octal after a zero, decimal, or with places
in base sixty. -/
def natural? : List Char → Option Nat
  | '0' :: 'b' :: ds =>
    if ds ≠ [] && ds.all (fun c => c = '0' || c = '1' || c = '_') then some (number 2 ds) else none
  | '0' :: 'x' :: ds =>
    if ds ≠ [] && ds.all (fun c => isHex c || c = '_') then some (number 16 ds) else none
  | '0' :: ds =>
    if ds.all (fun c => ('0' ≤ c && c ≤ '7') || c = '_') then some (number 8 ds) else none
  | cs =>
    match pieces ':' cs with
    | [] => none
    | first :: places =>
      if isWhole first && places.all isSixtieth then
        some (places.foldl (fun n place => n * 60 + number 10 place) (number 10 first))
      else none

/-- An integer. -/
def integer? (cs : List Char) : Option Int :=
  let (sign, cs) := signed cs
  (natural? cs).map fun n => sign * n

/-- The exponent of a decimal; it has a sign. -/
def exponent? : List Char → Option Int
  | [] => some 0
  | e :: sign :: ds =>
    if (e = 'e' || e = 'E') && (sign = '-' || sign = '+') && ds ≠ [] && ds.all isDigit then
      some (if sign = '-' then -(number 10 ds : Int) else number 10 ds)
    else none
  | _ => none

/-- A decimal with the digits in front of its point and what follows the point. -/
def fraction? (sign : Int) (whole rest : List Char) : Option Value :=
  let places := (rest.takeWhile isSpacedDigit).filter (· ≠ '_')
  (exponent? (rest.dropWhile isSpacedDigit)).map fun exponent =>
    .decimal ⟨sign * number 10 (whole ++ places), exponent - places.length⟩

/-- Whether digits and places in base sixty stand in front of a point. -/
def isSexagesimal (whole rest : List Char) : Bool :=
  match pieces ':' whole with
  | (c :: cs) :: place :: places =>
    isDigit c && cs.all isSpacedDigit && (place :: places).all isSixtieth && rest.all isSpacedDigit
  | _ => false

/-- A decimal: digits with a point, an infinity, or no number at all. -/
def decimal? (cs : List Char) : Option Value :=
  let (sign, unsigned) := signed cs
  match cutAt '.' unsigned with
  | none => none
  | some ([], rest) =>
    if [".inf", ".Inf", ".INF"].contains (String.ofList unsigned) ||
        [".nan", ".NaN", ".NAN"].contains (String.ofList cs) then some (.other (String.ofList cs))
    else if cs = unsigned && rest.head?.any isDigit then fraction? sign [] rest
    else none
  | some (c :: whole, rest) =>
    if isDigit c && whole.all isSpacedDigit then fraction? sign (c :: whole) rest
    else if isSexagesimal (c :: whole) rest then some (.other (String.ofList cs))
    else none

/-! ## Dates -/

/-- What follows a run of digits whose length lies between two bounds. -/
def afterDigits? (least most : Nat) (cs : List Char) : Option (List Char) :=
  let n := (cs.takeWhile isDigit).length
  if least ≤ n && n ≤ most then some (cs.drop n) else none

/-- Whether a text is a day. -/
def isDay (cs : List Char) : Bool :=
  (afterDigits? 4 4 cs >>= after? ['-'] >>= afterDigits? 2 2 >>= after? ['-'] >>= afterDigits? 2 2)
    == some []

/-- What follows the mark between a day and a time. -/
def afterTimeMark? : List Char → Option (List Char)
  | [] => none
  | c :: cs =>
    if c = 'T' || c = 't' then some cs
    else if c = ' ' || c = '\t' then some (cs.dropWhile fun c => c = ' ' || c = '\t')
    else none

/-- What follows a fraction of a second. -/
def afterFraction : List Char → List Char
  | '.' :: cs => cs.dropWhile isDigit
  | cs => cs

/-- Whether a text is a time zone, or nothing. -/
def isZone (cs : List Char) : Bool :=
  match cs.dropWhile fun c => c = ' ' || c = '\t' with
  | [] => cs = []
  | ['Z'] => true
  | sign :: rest =>
    (sign = '-' || sign = '+') &&
      match afterDigits? 1 2 rest with
      | some [] => true
      | some (':' :: minutes) => afterDigits? 2 2 minutes == some []
      | _ => false

/-- Whether a text is a point in time. -/
def isInstant (cs : List Char) : Bool :=
  match afterDigits? 4 4 cs >>= after? ['-'] >>= afterDigits? 1 2 >>= after? ['-'] >>=
      afterDigits? 1 2 >>= afterTimeMark? >>= afterDigits? 1 2 >>= after? [':'] >>=
      afterDigits? 2 2 >>= after? [':'] >>= afterDigits? 2 2 with
  | some rest => isZone (afterFraction rest)
  | none => false

/-! ## Meaning -/

/-- The value of a scalar that is no text. -/
def value? (cs : List Char) : Option Value :=
  word? cs <|> (integer? cs).map Value.int <|> decimal? cs <|>
    if isDay cs || isInstant cs then some (.other (String.ofList cs)) else none

/-- The scalars that stand for operations on tables. -/
def isReserved (cs : List Char) : Bool := cs = ['<', '<'] || cs = ['=']

/-- Whether a scalar is a text. -/
def isText (cs : List Char) : Bool := (value? cs).isNone && !isReserved cs

end HeaderApi.Yaml.Plain
