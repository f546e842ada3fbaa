import HeaderApi.Text.Word
import HeaderApi.Token.Block

/-!
# Records

A struct, class, union or enum with a body.  The opening line gives the kind, the name and
possibly the base; the body may begin on a later line.
-/

namespace HeaderApi.Record

open Text Block

/-! ## The opening line -/

/-- What the opening line of a record says. -/
structure Opening where
  /-- Whether the record is part of a type definition. -/
  defines : Bool
  kind : RecordKind
  name : List Char
  base : List Char
  /-- Whether the body begins on this line. -/
  opens : Bool
  deriving DecidableEq, Repr

/-- Whether a word ends here. -/
def wordEnds : List Char → Bool
  | [] => true
  | c :: _ => !isWord c

/-- The keyword of a record at the front of a text. -/
def keyword? (cs : List Char) : Option (RecordKind × List Char) :=
  (after? "struct".toList cs).map (RecordKind.struct, ·) <|>
    (after? "class".toList cs).map (RecordKind.struct, ·) <|>
    (after? "union".toList cs).map (RecordKind.union, ·) <|>
    (after? "enum".toList cs).map (RecordKind.enum, ·)

/-- A second keyword, as in `enum class`, when it stands as a word of its own. -/
def secondKeyword? (cs : List Char) : Option (List Char) := do
  let text ← afterBlanks? cs
  let rest ← after? "class".toList text <|> after? "struct".toList text
  if wordEnds rest then some rest else none

/-- A character of a record's name. -/
def isNameChar (c : Char) : Bool := isWord c || c = ':' || c = '<' || c = '>'

/-- The base behind its colon and whether the body opens behind it. -/
def baseClause? (cs : List Char) : Option (List Char × Bool) :=
  let base := cs.takeWhile fun c => c ≠ '\x7b' && c ≠ ';'
  match base, cs.dropWhile fun c => c ≠ '\x7b' && c ≠ ';' with
  | [], _ => none
  | _, [] => some (trim base, false)
  | _, '\x7b' :: rest => if rest.contains '\n' then none else some (trim base, true)
  | _, _ => none

/-- The splits of a text at its colons, from the last to the first. -/
def colonSplits : List Char → List (List Char × List Char)
  | [] => []
  | c :: rest =>
    let later := (colonSplits rest).map fun split => (c :: split.1, split.2)
    if c = ':' then later ++ [([], rest)] else later

/-- What follows the name of a record: the name, the base and whether the body opens.  A colon
inside the name run is the colon of the base when the text does not fit otherwise. -/
def tail? (name rest : List Char) : Option (List Char × List Char × Bool) :=
  let plain := match trimStart rest with
    | [] => some ([], false)
    | ':' :: base => baseClause? base
    | '\x7b' :: body => if body.contains '\n' then none else some ([], true)
    | _ => none
  match plain with
  | some result => some (name, result)
  | none => (colonSplits name).findSome? fun split =>
      (baseClause? (split.2 ++ rest)).map fun result => (split.1, result)

/-- The opening line of a record. -/
def opening? (line : Line) : Option Opening := do
  let defined := after? "typedef".toList line >>= afterBlanks?
  let (kind, rest) ← keyword? (defined.getD line)
  let rest := (secondKeyword? rest).getD rest
  if !wordEnds rest then none
  else
    let text := trimStart rest
    let (name, base, opens) ← tail? (text.takeWhile isNameChar) (text.dropWhile isNameChar)
    return ⟨defined.isSome, kind, name, base, opens⟩

/-- Whether a line has a body or may have one on the lines after it. -/
def mayHaveBody (line : Line) : Bool := line.contains '\x7b' || !line.contains ';'

/-! ## The body -/

/-- The line that opens a body: its text, the number of lines before it, and the lines after
it. -/
structure BodyLine where
  base : List Char
  raw : Line
  offset : Nat
  rest : List Line

/-- Looks for the line that opens the body.  `here` are the lines that are left when the search
gives up, and `offset` counts the lines passed.  A line that begins with a colon gives the base.
When another statement follows, the record has no body. -/
def findBody (name base : List Char) (here : List Line) (offset : Nat) :
    List Line → Except Fault (Option BodyLine × List Line)
  | [] => .error ⟨.bodyOf (String.ofList name), here⟩
  | raw :: rest =>
    let line := trim raw
    if line = [] then findBody name base here (offset + 1) rest
    else if startsWith [':'] line && base = [] then
      let base := trim (dropEndWhile (· = '\x7b') (line.drop 1))
      if endsWith ['\x7b'] line then .ok (some ⟨base, raw, offset, rest⟩, rest)
      else findBody name base rest (offset + 1) rest
    else if startsWith ['\x7b'] line then .ok (some ⟨base, raw, offset, rest⟩, here)
    else .ok (none, here)

/-- The name behind the body, which names a type definition or a record without a tag.  `tail`
is what follows the last closing brace. -/
def finalName (opening : Opening) (tail : Line) : List Char :=
  let word := (trimStart (Source.code tail)).takeWhile isWord
  if word ≠ [] && (opening.defines || opening.name = []) then word else opening.name

/-- The lines of a body and the number of the first one.  `inner` is what precedes the last
closing brace, `passed` are the further lines of the block, and `number` is that of the line that
opens it. -/
def bodyFrom (inner : Line) (passed : List Line) (number : Int) : List Line × Int :=
  match passed with
  | [] => (if allBlank inner then [] else [inner], number)
  | _ :: _ => (passed.dropLast, number + 1)

/-- Reads the body that the given line opens.  `number` is the number of that line, and a fault
stays at `here`. -/
def readBody (opening : Opening) (base : List Char) (here : List Line) (raw : Line) (number : Int)
    (rest : List Line) : Except Fault (Statement × List Line) := do
  let (inside, passed, rest) ← openBraces here raw rest
  match cutAtLast '\x7d' (passed.getLast?.getD inside) with
  | none => throw ⟨.absent '\x7d', here⟩
  | some (inner, tail) =>
    let (body, bodyBegin) := bodyFrom inner passed number
    return (.record ⟨opening.kind, String.ofList (finalName opening tail), String.ofList base, body,
      bodyBegin⟩, rest)

/-- Reads a record.  `raw` is the current line, `number` its number, and `rest` the lines after
it. -/
def read (opening : Opening) (raw : Line) (number : Int) (rest : List Line) :
    Except Fault (Statement × List Line) :=
  if opening.opens then readBody opening opening.base rest raw number rest
  else do
    let (found, here) ← findBody opening.name opening.base rest 0 rest
    match found with
    | some line => readBody opening line.base here line.raw (number + 1 + line.offset) line.rest
    | none => return (.unknown (String.ofList opening.name), here)

end HeaderApi.Record
