import HeaderApi.Text.Word
import HeaderApi.Token.Block

/-!
# Names for types

Type definitions, function pointer types, using declarations and forward declarations.
-/

namespace HeaderApi.Alias

open Text Block

/-- What follows a keyword and at least one blank, with the number of blanks. -/
def afterKeyword? (word line : List Char) : Option (Nat × List Char) := do
  let rest ← after? word line
  if indentation rest = 0 then none else some (indentation rest, trimStart rest)

/-! ## Type definitions -/

/-- A character of the type in a type definition. -/
def isTypeChar (c : Char) : Bool := isWord c || isBlank c || c = '*'

/-- Whether a type may stand between a keyword with so many blanks and what follows it.  Two
blanks leave room for an empty type. -/
def hasRoom (blanks : Nat) (type : List Char) : Bool := type ≠ [] || 1 < blanks

/-- The name of a function pointer behind its opening parenthesis, and what follows the
parenthesis that opens the parameters. -/
def pointerName? (cs : List Char) : Option (List Char × List Char) := do
  let text := trimStart cs
  let text ← if text.takeWhile isWord = [] then some text
    else afterBlanks? (text.dropWhile isWord)
  let text := trimStart (← after? ['*'] text)
  let name := text.takeWhile isWord
  let rest ← after? [')'] (trimStart (text.dropWhile isWord))
  let rest ← after? ['('] (trimStart rest)
  if name = [] then none else some (name, rest)

/-- The head of a function pointer type: type, name and the beginning of the parameters. -/
structure PointerHead where
  type : List Char
  name : List Char
  parameters : List Char
  deriving DecidableEq, Repr

/-- The head of a function pointer type definition. -/
def pointer? (line : Line) : Option PointerHead := do
  let (blanks, text) ← afterKeyword? "typedef".toList line
  let type := text.takeWhile isTypeChar
  let (name, parameters) ← pointerName? (← after? ['('] (text.dropWhile isTypeChar))
  if hasRoom blanks type && !parameters.contains '\n' then some ⟨trim type, name, parameters⟩
  else none

/-- Reads a function pointer type definition. -/
def readPointer (head : PointerHead) (rest : List Line) :
    Except Fault (Statement × List Line) := do
  let (list, rest) ← parenthesized head.parameters rest
  let rest ← if list.trailer.contains ';' then pure rest else skipStatement list.trailer rest
  return (.callback (String.ofList head.name) (String.ofList head.type)
    (String.ofList (trim (joinLines list.inside))), rest)

/-- The extent at the front of a text, possibly empty, when a semicolon follows. -/
def extentBeforeSemicolon? : List Char → Option (List Char)
  | ';' :: _ => some []
  | '[' :: inner => do
    let (inside, rest) ← cutAt ']' inner
    if startsWith [';'] (trimStart rest) then some ('[' :: inside ++ [']']) else none
  | _ => none

/-- A type definition on one line: the last word is the name, what stands before it the type. -/
def definition? (line : Line) : Option Statement := do
  let (blanks, text) ← afterKeyword? "typedef".toList line
  let reversed := (trimEnd (text.takeWhile isTypeChar)).reverse
  let name := (reversed.takeWhile isWord).reverse
  let type := (reversed.dropWhile isWord).reverse
  let extent ← extentBeforeSemicolon? (text.dropWhile isTypeChar)
  if name ≠ [] && hasRoom blanks type then
    some (.typeAlias (String.ofList name) (String.ofList (trim type ++ extent)))
  else none

/-! ## Using declarations -/

/-- The further parts of an alias up to the line that ends in a semicolon. -/
def usingParts : List Line → Reading (List Line)
  | [] => .error ⟨.typeAlias, []⟩
  | raw :: rest =>
    let line := trim raw
    if endsWith [';'] line then .ok ([trim line.dropLast], rest)
    else (usingParts rest).map fun (parts, rest) => (line :: parts, rest)

/-- The name that a using declaration brings in. -/
def usingName? (line : Line) : Option (List Char) := do
  let text ← after? "using".toList line >>= afterBlanks?
  let name := text.takeWhile fun c => isWord c || c = ':'
  let rest := text.dropWhile fun c => isWord c || c = ':'
  if name ≠ [] && startsWith [';'] (trimStart rest) then some name else none

/-- The name and the beginning of the type of an alias. -/
def usingAlias? (line : Line) : Option (List Char × List Char) := do
  let text ← after? "using".toList line >>= afterBlanks?
  let name := text.takeWhile isWord
  let type ← after? ['='] (trimStart (text.dropWhile isWord))
  if name = [] then none else some (name, trimStart type)

/-- Reads a using declaration. -/
def readUsing (line : Line) (rest : List Line) : Except Fault (Statement × List Line) :=
  match usingName? line with
  | some name => .ok (.typeAlias (String.ofList name) "", rest)
  | none =>
    match usingAlias? line with
    | none => .ok (.unknown (String.ofList line), rest)
    | some (name, type) => do
      let first := trim (type.takeWhile (· ≠ ';'))
      let (others, rest) ← if type.contains ';' then pure ([], rest) else usingParts rest
      let parts := (first :: others).filter (· ≠ [])
      return (.typeAlias (String.ofList name) (String.ofList ([' '].intercalate parts)), rest)

/-! ## Forward declarations -/

/-- The name of a forward declaration. -/
def forward? (line : Line) : Option Statement := do
  let rest ← after? "struct".toList line <|> after? "class".toList line
  let text ← afterBlanks? rest
  let isName c := isWord c || c = '<' || c = '>' || c = ':'
  let name := text.takeWhile isName
  if name ≠ [] && startsWith [';'] (trimStart (text.dropWhile isName)) then
    some (.forward (String.ofList name))
  else none

end HeaderApi.Alias
