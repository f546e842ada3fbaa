import HeaderApi.Source.Code
import HeaderApi.Text.Word
import HeaderApi.Token.Comment

/-!
# Directives

A preprocessor directive runs on over lines that end in a backslash.  A definition whose name does
not end in an underscore is read in full; every other directive is kept as text.
-/

namespace HeaderApi.Directive

open Text

/-- The further lines of a directive, trimmed, and the lines after them. -/
def continuation (line : Line) : List Line → List Line × List Line
  | [] => ([], [])
  | raw :: rest =>
    if endsWith ['\\'] line then
      let next := trim raw
      let taken := continuation next rest
      (next :: taken.1, taken.2)
    else ([], raw :: rest)

/-- A line without the backslashes at its end. -/
def withoutBackslash (line : Line) : Line := trim (dropEndWhile (· = '\\') line)

/-- The opening of a definition. -/
structure DefinitionHead where
  name : List Char
  parameters : Option (List Char)
  value : List Char
  deriving DecidableEq, Repr

/-- The keyword of a directive and what follows it: `#`, blanks, the keyword. -/
def keyword? (word line : List Char) : Option (List Char) := do
  after? word (trimStart (← after? ['#'] line))

/-- The parameters in parentheses at the front, if they are closed, and the rest. -/
def splitParameters (cs : List Char) : Option (List Char) × List Char :=
  match cs with
  | '(' :: inner =>
    match cutAt ')' inner with
    | some (parameters, rest) => (some parameters, rest)
    | none => (none, cs)
  | _ => (none, cs)

/-- The name, the parameters and the first line of the value of a definition. -/
def definition? (line : Line) : Option DefinitionHead := do
  let text ← afterBlanks? (← keyword? "define".toList line)
  let name := text.takeWhile isWord
  let (parameters, value) := splitParameters (text.dropWhile isWord)
  if name = [] || value.contains '\n' then none else some ⟨name, parameters, value⟩

/-- The region marker behind which a header holds no declarations. -/
def isImplementation (line : Line) : Bool :=
  match keyword? "pragma".toList line >>= afterBlanks? >>= after? "region".toList >>=
      afterBlanks? with
  | some rest => startsWith "impl".toList rest
  | none => false

/-- A directive of some lines as text. -/
def plain (lines : List Line) : Statement :=
  .directive (String.ofList ([' '].intercalate (lines.map withoutBackslash)))

/-- Reads the directive that begins with the given line. -/
def read (line : Line) (rest : List Line) : Statement × List Line :=
  let (others, rest) := continuation line rest
  match definition? line with
  | some head =>
    if endsWith ['_'] head.name then (plain (line :: others), rest)
    else
      let value := joinLines ((head.value :: others).map withoutBackslash)
      let doc := Comment.inlineDoc? value
      let bare := trim (Source.code (if doc.isSome then Comment.removeInline value else value))
      (.definition (String.ofList head.name) (head.parameters.map (String.ofList ∘ trim))
        (doc.map String.ofList) (if bare = [] then none else some (String.ofList bare)), rest)
  | none => (plain (line :: others), rest)

end HeaderApi.Directive
