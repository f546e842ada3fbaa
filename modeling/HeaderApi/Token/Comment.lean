import HeaderApi.Text.Blank
import HeaderApi.Text.Scan
import HeaderApi.Token.Basic

/-!
# Comments

A run of line comments of one sort is one statement, and so is a block comment.  The text of a
doc comment loses its comment marks and the stars at the beginning of its lines.
-/

namespace HeaderApi.Comment

open Text

/-- The marker of a forward declaration. -/
def isForwardMarker (line : Line) : Bool :=
  match after? "//".toList line with
  | some rest => startsWith "Forward decl".toList (trimStart rest)
  | none => false

/-! ## Line comments -/

/-- Whether a line comment documents what follows. -/
def isDocLine (line : Line) : Bool :=
  startsWithAny ["///".toList, "//!".toList] line && !startsWith "////".toList line

/-- The line comments of the same sort at the front, trimmed, and the lines after them. -/
def takeLineComments (isDoc : Bool) : List Line → List Line × List Line
  | [] => ([], [])
  | raw :: rest =>
    let line := trim raw
    if !startsWith "//".toList line || isForwardMarker line || isDocLine line != isDoc then
      ([], raw :: rest)
    else
      let taken := takeLineComments isDoc rest
      (line :: taken.1, taken.2)

/-- Drops one blank at the front. -/
def dropBlank : List Char → List Char
  | c :: rest => if isBlank c then rest else c :: rest
  | [] => []

/-- The text of a doc line behind its mark. -/
def docLineText (line : Line) : Line :=
  match line.drop 3 with
  | '<' :: rest => dropBlank rest
  | rest => dropBlank rest

/-- Reads the line comments that begin with the given line. -/
def readLines (line : Line) (rest : List Line) : Statement × List Line :=
  let isDoc := isDocLine line
  let (others, rest) := takeLineComments isDoc rest
  if isDoc then
    (.doc (String.ofList (trim (joinLines ((line :: others).map docLineText)))), rest)
  else (.comment, rest)

/-! ## Block comments -/

/-- The texts of a block comment that begins with the given text, up to its end mark. -/
def blockTexts (text : Line) : List Line → Reading (List Line)
  | [] =>
    match before? "*/".toList text with
    | some last => .ok ([last], [])
    | none => .error ⟨.comment, []⟩
  | next :: rest =>
    match before? "*/".toList text with
    | some last => .ok ([last], next :: rest)
    | none => (blockTexts next rest).map fun (texts, rest) => (text :: texts, rest)

/-- Drops the star at the beginning of a line, with the blanks before it and one blank after
it. -/
def dropStar (text : Line) : Line :=
  match trimStart text with
  | '*' :: rest => dropBlank rest
  | _ => text

/-- Drops the mark of a doc comment that follows what it documents. -/
def dropBackMark : List Line → List Line
  | ('<' :: text) :: texts => text :: texts
  | texts => texts

/-- Reads the block comment that begins with the given line. -/
def readBlock (line : Line) (rest : List Line) : Reading Statement :=
  if startsWith "/**".toList line && !startsWith "/**/".toList line then
    (blockTexts (line.drop 3) rest).map fun (texts, rest) =>
      (.doc (String.ofList (trim (joinLines ((dropBackMark texts).map dropStar)))), rest)
  else (blockTexts (line.drop 2) rest).map fun (_, rest) => (.comment, rest)

/-! ## Docs behind a declaration -/

/-- A doc comment behind a declaration that begins here: its text and what follows it. -/
def inlineHere? (cs : List Char) : Option (List Char × List Char) :=
  match after? "/**<".toList cs with
  | some rest => beforeOnLine? "*/".toList rest
  | none =>
    match after? "///<".toList cs with
    | some rest =>
      let tail := rest.dropWhile (· ≠ '\n')
      if tail = [] || tail = ['\n'] then some (rest.takeWhile (· ≠ '\n'), tail) else none
    | none => none

/-- The text of the first doc comment behind a declaration. -/
def inline? : List Char → Option (List Char)
  | [] => none
  | c :: rest =>
    match inlineHere? (c :: rest) with
    | some (text, _) => some (trim text)
    | none => inline? rest

/-- The text of the first doc comment behind a declaration, unless it is blank. -/
def inlineDoc? (cs : List Char) : Option (List Char) := (inline? cs).filter (· ≠ [])

/-- Leaves out the doc comments behind a declaration, after skipping some characters. -/
def removeInlineFrom : Nat → List Char → List Char
  | _, [] => []
  | skip + 1, _ :: rest => removeInlineFrom skip rest
  | 0, c :: rest =>
    match inlineHere? (c :: rest) with
    | some (_, tail) => removeInlineFrom (rest.length - tail.length) rest
    | none => c :: removeInlineFrom 0 rest

/-- Leaves out the doc comments behind a declaration. -/
def removeInline (cs : List Char) : List Char := removeInlineFrom 0 cs

end HeaderApi.Comment
