import HeaderApi.File.Error
import HeaderApi.Header.Printer
import HeaderApi.Log

/-!
# Parts of an amalgamation

An amalgamation merges a tree of headers into one.  Each header contributes one part: the lines of
its namespace, or the whole of a condition around its body.
-/

namespace HeaderApi

open Text

/-- How headers are merged. -/
structure AmalgamOptions where
  namespaceName : String := "SDL"
  guard : String := "SDL3PP_H_"
  title : String := "Amalgamated SDL3pp"
  /-- The include behind the sorted system includes. -/
  masterInclude : String := "SDL3/SDL.h"
  /-- System includes that begin like this are covered by the master include. -/
  masterStart : String := "SDL3/"
  deriving DecidableEq, Repr, Inhabited

/-- A reason why headers can not be merged. -/
inductive AmalgamError where
  /-- A header that could not be read. -/
  | unread (e : FileError)
  /-- A header whose content is never closed. -/
  | unclosed (file marker : String)
  /-- Headers that wait for each other. -/
  | cycle (files : List String)
  deriving DecidableEq, Repr, Inhabited

/-- The message of an error. -/
def AmalgamError.message : AmalgamError → String
  | .unread e => e.message
  | .unclosed file marker => "Expected \"" ++ marker ++ "\" at file " ++ file
  | .cycle files => "Dependency cycle between: " ++ String.intercalate ", " files

/-- Puts a text into a sorted list without duplicates. -/
def insertText (s : String) : List String → List String
  | [] => [s]
  | t :: ts => if s = t then t :: ts else if s < t then s :: t :: ts else t :: insertText s ts

/-- Puts texts into a sorted list without duplicates. -/
def insertTexts (texts sorted : List String) : List String :=
  texts.foldl (fun ts s => insertText s ts) sorted

/-- Inserting adds exactly the given text. -/
@[simp] theorem mem_insertText {s t : String} {ts : List String} :
    t ∈ insertText s ts ↔ t = s ∨ t ∈ ts := by
  induction ts with
  | nil => simp [insertText]
  | cons u us ih =>
    rw [insertText]
    split
    · rename_i h
      subst h
      simp
    · split
      · simp
      · simp only [List.mem_cons, ih]
        constructor
        · rintro (h | h | h) <;> simp [h]
        · rintro (h | h | h) <;> simp [h]

/-- The part of one header. -/
structure Part where
  name : String
  /-- The quoted includes, sorted and without duplicates. -/
  deps : List String := []
  /-- The system includes. -/
  includes : List String := []
  /-- Whether the body stands under a condition. -/
  conditional : Bool := false
  content : Option (List Line) := none
  deriving DecidableEq, Repr, Inhabited

/-! ## Reading a part -/

namespace Part

/-- A character of the name of an include. -/
def isIncludeChar (c : Char) : Bool := isWord c || c = '.' || c = '/' || c = '*' || c = '-'

/-- The include on a line, and whether it is quoted. -/
def include? (line : Line) : Option (Bool × String) := do
  let text := trimStart (← after? "include".toList (trimStart (← after? ['#'] line)))
  let isQuoted ← match text.head? with
    | some '<' => some false
    | some '"' => some true
    | _ => none
  let name := text.tail.takeWhile isIncludeChar
  let closing := (text.tail.dropWhile isIncludeChar).head?
  if name ≠ [] && (closing = some '>' || closing = some '"') then
    some (isQuoted, String.ofList name)
  else none

/-- Adds a dependency. -/
def addDep (part : Part) (name : String) : Part := { part with deps := insertText name part.deps }

/-- The lines before the last one that closes a condition. -/
def beforeLastEndif (lines : List Line) : Option (List Line) :=
  match lines.reverse.dropWhile fun line => !startsWith "#endif".toList line with
  | [] => none
  | _ :: before => some before.reverse

/-- Whether a line is a quoted include, and of what. -/
def quotedInclude? (line : Line) : Option String :=
  match include? line with
  | some (true, name) => some name
  | _ => none

/-- The part of a header whose body stands under the condition on the given line. -/
def readConditional (part : Part) (first : Line) (rest : List Line) : Except AmalgamError Part :=
  match beforeLastEndif rest with
  | none => .error (.unclosed part.name "#endif")
  | some body =>
    let lines := first :: body
    let part := (lines.filterMap quotedInclude?).foldl addDep part
    .ok { part with conditional := true, content := some (lines.filter (quotedInclude? · = none)) }

/-- The lines up to the end of the namespace. -/
def readContent (closing : Line) : List Line → Option (List Line)
  | [] => none
  | line :: rest =>
    if startsWith closing line then some [] else (readContent closing rest).map (line :: ·)

/-- Reads the includes of a header and then its content. -/
def readIncludes (options : AmalgamOptions) (part : Part) : List Line → Except AmalgamError Part
  | [] => .ok part
  | line :: rest =>
    match include? line with
    | some (true, name) => readIncludes options (part.addDep name) rest
    | some (false, name) =>
      if startsWith options.masterStart.toList name.toList then readIncludes options part rest
      else readIncludes options { part with includes := part.includes ++ [name] } rest
    | none =>
      if startsWith (namespaceOpen options.namespaceName) line then
        let closing := namespaceClose options.namespaceName
        match readContent closing rest with
        | some content => .ok { part with content := some content }
        | none => .error (.unclosed part.name (String.ofList closing))
      else if startsWith "#if".toList line then readConditional part line rest
      else readIncludes options part rest

/-- The lines behind the guard of a header. -/
def afterGuard : List Line → List Line
  | [] => []
  | [_] => []
  | first :: second :: rest =>
    if startsWith "#ifndef".toList first && startsWith "#define".toList second then rest
    else afterGuard (second :: rest)

/-- The part of a header. -/
def read (options : AmalgamOptions) (name : String) (lines : List Line) :
    Logged AmalgamError Part :=
  match readIncludes options { name } (afterGuard lines) with
  | .error e => Logged.fail e
  | .ok part =>
    if part.content.isSome then pure part
    else ⟨[⟨.debug, name ++ " has no content"⟩], .ok part⟩

end Part

end HeaderApi
