import HeaderApi.Spelling
import HeaderApi.Token.Block
import HeaderApi.Token.Comment

/-!
# Functions and variables

A declaration that opens with no keyword of its own: words of a type, a name, and either a
parameter list or the tail of a variable.
-/

namespace HeaderApi.Member

open Text Block

/-! ## Attributes -/

/-- The words of buffer size annotations. -/
def capacityWords : List String :=
  ["OUT", "IN", "INOUT"].flatMap fun way =>
    ["", "Z_"].flatMap fun terminated =>
      ["", "BYTE"].map fun unit => "SDL_" ++ way ++ "_" ++ terminated ++ unit ++ "CAP"

/-- Attribute and calling convention words that are left out of signatures. -/
def attributeWords : List (List Char) :=
  (["extern", "SDL_FORCE_INLINE", "SDL_DECLSPEC", "SDL_MALLOC", "SDL_ALLOC_SIZE2",
    "SDL_ALLOC_SIZE", "SDLCALL", "SDL_PRINTF_VARARG_FUNC", "SDL_PRINTF_VARARG_FUNCV",
    "SDL_SCANF_VARARG_FUNC", "SDL_SCANF_VARARG_FUNCV", "SDL_WPRINTF_VARARG_FUNC",
    "SDL_WPRINTF_VARARG_FUNCV"] ++ capacityWords).map String.toList

/-- What follows an attribute word: its arguments, if they are closed, and blanks are dropped. -/
def afterAttribute (cs : List Char) : List Char :=
  match cs with
  | '(' :: inner =>
    match cutAt ')' inner with
    | some (_, rest) => trimStart rest
    | none => trimStart cs
  | _ => trimStart cs

/-- Leaves out attributes, after skipping some characters; the flag tells whether the character
before is part of a word. -/
def dropAttributesFrom : Nat → Bool → List Char → List Char
  | _, _, [] => []
  | skip + 1, _, _ :: rest => dropAttributesFrom skip false rest
  | 0, inWord, c :: rest =>
    if !inWord && isWord c && attributeWords.contains ((c :: rest).takeWhile isWord) then
      let tail := afterAttribute ((c :: rest).dropWhile isWord)
      dropAttributesFrom (rest.length - tail.length) false rest
    else c :: dropAttributesFrom 0 (isWord c) rest

/-- Leaves out the attributes of a declaration. -/
def dropAttributes (line : Line) : Line := trimStart (dropAttributesFrom 0 false line)

/-! ## Heads -/

/-- A character of a word of a type. -/
def isTypeChar (c : Char) : Bool :=
  isWord c || c = '*' || c = '&' || c = ':' || c = '<' || c = '>' || c = ',' || c = '[' || c = ']'

/-- A character of the name of a member. -/
def isNameChar (c : Char) : Bool :=
  isWord c || c = '*' || c = '&' || c = '~' || c = ':' || c = '<' || c = '>'

/-- A character of an operator. -/
def isOperatorChar (c : Char) : Bool := "-+*/<>=!%&|^~".toList.contains c

/-- The symbol of an operator at the front of a text, and the rest. -/
def operatorSymbol? (cs : List Char) : Option (List Char × List Char) :=
  match ["()", "[]", "<=>", "->"].findSome? fun symbol =>
      (after? symbol.toList cs).map (symbol.toList, ·) with
  | some result => some result
  | none =>
    let symbol := (cs.take 3).takeWhile isOperatorChar
    if symbol = [] then none else some (symbol, cs.drop symbol.length)

/-- The name of an operator at the front of a text, and the rest. -/
def operatorName? (cs : List Char) : Option (List Char × List Char) := do
  let rest ← after? "operator".toList cs
  let (symbol, tail) ← operatorSymbol? (trimStart rest)
  return ("operator".toList ++ rest.takeWhile isBlank ++ symbol, tail)

/-- The name of a member at the front of a text, and the rest. -/
def memberName? (cs : List Char) : Option (List Char × List Char) :=
  match operatorName? cs with
  | some result => some result
  | none =>
    if cs.takeWhile isNameChar = [] then none
    else some (cs.takeWhile isNameChar, cs.dropWhile isNameChar)

/-- A word of a type and the blanks behind it, and the rest. -/
def typeWord? (cs : List Char) : Option (List Char × List Char) :=
  if cs.takeWhile isTypeChar = [] then none
  else (afterBlanks? (cs.dropWhile isTypeChar)).map (cs.takeWhile isTypeChar, ·)

/-- The words of the type, the name, and what follows it. -/
structure Head where
  words : List (List Char)
  name : List Char
  rest : List Char
  deriving DecidableEq, Repr

/-- The head of a member with as many words of the type as leave a name.  The fuel bounds the
number of words. -/
def headFrom : Nat → List Char → Option Head
  | 0, cs => (memberName? cs).map fun (name, rest) => ⟨[], name, rest⟩
  | fuel + 1, cs =>
    match typeWord? cs with
    | some (word, tail) =>
      match headFrom fuel tail with
      | some head => some { head with words := word :: head.words }
      | none => (memberName? cs).map fun (name, rest) => ⟨[], name, rest⟩
    | none => (memberName? cs).map fun (name, rest) => ⟨[], name, rest⟩

/-- The head of a member. -/
def head? (cs : List Char) : Option Head := headFrom cs.length cs

/-- Words that may stand before a type and are not part of it. -/
def specifiers : List (List Char) :=
  ["inline", "static", "constexpr", "explicit", "virtual"].map String.toList

/-- The leading specifiers of a type. -/
def specifiersOf (words : List (List Char)) : List (List Char) :=
  words.takeWhile fun word => specifiers.contains word

/-- The type without its leading specifiers. -/
def typeOf (words : List (List Char)) : List Char :=
  [' '].intercalate (words.dropWhile fun word => specifiers.contains word)

/-- Moves the marks in front of a name to the end of its type. -/
def moveMarks (type name : List Char) : List Char × List Char :=
  let marks := name.takeWhile Spelling.isMark
  let bare := name.dropWhile Spelling.isMark
  if marks ≠ [] && bare ≠ [] && bare.all isWord then (trim (type ++ ' ' :: marks), bare)
  else (type, name)

/-! ## Functions -/

/-- Whether a function is immutable, and the number of reference marks behind it. -/
def qualifiers (trailer : List Char) : Bool × Nat :=
  let text := trimStart trailer
  let immutable := startsWith "const".toList text
  let marks := trimStart ((after? "const".toList text).getD text)
  (immutable, ((marks.take 2).takeWhile (· = '&')).length)

/-- Reads a function whose parameters begin with the given text. -/
def readFunction (head : Head) (parameters : Line) (rest : List Line) :
    Except Fault (Statement × List Line) := do
  let (list, rest) ← parenthesized parameters rest
  let (immutable, reference) := qualifiers list.trailer
  let rest ← functionTail rest list.trailer rest
  let type := typeOf head.words
  let (type, name) :=
    if startsWith "operator".toList type then
      ([], type ++ ' ' :: Spelling.spaceMarks head.name)
    else (type, head.name)
  let (type, name) := moveMarks type name
  let flags := specifiersOf head.words
  return (.function {
    name := String.ofList name
    type := String.ofList type
    parameters := String.ofList (trim (joinLines list.inside))
    immutable := immutable
    static := flags.contains "static".toList
    constexpr := flags.contains "constexpr".toList
    reference := reference }, rest)

/-! ## Variables -/

/-- The array extents at the front of a text with the blanks behind them, and the rest. -/
def takeExtents : Nat → List Char → List Char × List Char
  | 0, cs => ([], cs)
  | fuel + 1, cs =>
    match cs with
    | '[' :: inner =>
      match cutAt ']' inner with
      | some (inside, rest) =>
        let (more, tail) := takeExtents fuel (trimStart rest)
        ('[' :: inside ++ ']' :: rest.takeWhile isBlank ++ more, tail)
      | none => ([], cs)
    | _ => ([], cs)

/-- The extents and the initializer of a variable, from the text behind its name. -/
def variableTail (text : List Char) : List Char × Option String :=
  let bare := trim (dropEndWhile (· = ';') (trim (Source.code text)))
  let (extents, rest) := takeExtents bare.length bare
  let rest := trim rest
  let value := match rest with
    | '=' :: value => trim value
    | value => value
  (extents.filter (· ≠ ' '), if value = [] then none else some (String.ofList value))

/-- Whether code that lacks its semicolon runs on to the next line. -/
def runsOn (code : List Char) : Bool :=
  match (trimEnd code).getLast? with
  | some c => c = '=' || c = '\x7b' || c = ',' || c = '('
  | none => false

/-- Reads a variable.  `member` is the whole declaration. -/
def readVariable (member : Line) (head : Head) (rest : List Line) :
    Except Fault (Statement × List Line) := do
  let code := Source.code head.rest
  if !code.contains ';' && !runsOn code then return (.unknown (String.ofList member), rest)
  else
    let (text, rest) ← if code.contains ';' then pure (head.rest, rest)
      else (initializer (braceBalance code) false rest).map fun (parts, rest) =>
        (head.rest ++ ' ' :: [' '].intercalate parts, rest)
    let (extents, value) := variableTail text
    let (type, name) := moveMarks (typeOf head.words) head.name
    let flags := specifiersOf head.words
    return (.var {
      name := String.ofList name
      type := String.ofList (type ++ extents)
      initializer := value
      doc := (Comment.inlineDoc? text).map String.ofList
      static := flags.contains "static".toList
      constexpr := flags.contains "constexpr".toList }, rest)

/-! ## Members -/

/-- Reads the member that the given line begins.  The flag tells that no head was found. -/
def read (line : Line) (rest : List Line) : Except Fault (Statement × Bool × List Line) :=
  let member := dropAttributes line
  match head? member with
  | none => .ok (.unknown (String.ofList member), true, rest)
  | some head =>
    let result := match trimStart head.rest with
      | '(' :: parameters => readFunction head parameters rest
      | _ => readVariable member head rest
    result.map fun (statement, rest) => (statement, false, rest)

end HeaderApi.Member
