import HeaderApi.Log
import HeaderApi.Token.Alias
import HeaderApi.Token.Directive
import HeaderApi.Token.Enumerator
import HeaderApi.Token.Member
import HeaderApi.Token.Record

/-!
# The token stream

The statements of a header are read one after the other.  Each line belongs to exactly one token:
blank lines go to the token before them, or to the first token when they open the text.
-/

namespace HeaderApi.Token

open Text

/-! ## The cursor -/

/-- What is fixed for a whole stream. -/
structure Mode where
  /-- Statements are read as enumerators. -/
  enumerators : Bool := false
  /-- Statements that begin with one of these are passed over. -/
  ignored : List (List Char) :=
    ["SDL_COMPILE_TIME_ASSERT(".toList, "static_assert(".toList, "void *alloca".toList]

/-- Where a stream stands: the number of the next line, the lines left, and the open scopes,
innermost first. -/
structure Cursor where
  line : Int
  rest : List Line
  scopes : List Scope
  deriving DecidableEq, Repr, Inhabited

/-- The number of the last line of the text. -/
def Cursor.lastLine (c : Cursor) : Int := c.line + c.rest.length - 1

/-- The cursor after reading up to the given lines. -/
def Cursor.moveTo (c : Cursor) (rest : List Line) : Cursor :=
  { c with line := c.line + c.rest.length - rest.length, rest := rest }

/-! ## One statement -/

/-- Something about a statement that is worth a log line. -/
inductive Remark where
  | unbalancedBrace
  | textAfterTemplate
  | unknownStatement (text : List Char)
  deriving DecidableEq, Repr

/-- The log line of a remark about the given line. -/
def Remark.logLine (line : Int) : Remark → LogLine
  | .unbalancedBrace => ⟨.warning, "Unbalanced closing brace at line " ++ toString line⟩
  | .textAfterTemplate =>
    ⟨.warning, "Ignoring text after template parameters at line " ++ toString line⟩
  | .unknownStatement text =>
    ⟨.debug, "Unknown token at line " ++ toString line ++ ": " ++ String.ofList text⟩

/-- A statement that was read, with the scopes and lines left after it. -/
structure Read where
  statement : Statement
  scopes : List Scope
  rest : List Line
  remark : Option Remark := none

/-- An access label. -/
def isAccessLabel (line : Line) : Bool :=
  ["public", "private", "protected"].any fun word =>
    match after? word.toList line with
    | some rest => startsWith [':'] (trimStart rest)
    | none => false

/-- The opening of a block with foreign linkage. -/
def isLinkage (line : Line) : Bool :=
  match after? "extern".toList line >>= afterBlanks? with
  | some rest => startsWithAny ["\"C\"".toList, "\"C++\"".toList] rest
  | none => false

/-- The name of a namespace that a line opens. -/
def namespaceName? (line : Line) : Option (List Char) := do
  let rest ← after? "namespace".toList line
  let (name, _) ← cutAt '\x7b' rest
  return trim name

/-- The parameters of a template that a line opens. -/
def templateStart? (line : Line) : Option (List Char) := do
  after? ['<'] (trimStart (← after? "template".toList line))

/-- Reads the closing brace of a scope. -/
def readScopeEnd (scopes : List Scope) (rest : List Line) : Read :=
  match scopes with
  | [] => ⟨.other, [], rest, some .unbalancedBrace⟩
  | .named :: scopes => ⟨.namespaceEnd, scopes, rest, none⟩
  | .linkage :: scopes => ⟨.other, scopes, rest, none⟩

/-- Reads the parameters of a template. -/
def readTemplate (text : Line) (scopes : List Scope) (rest : List Line) : Except Fault Read :=
  match Block.enclosed '<' '>' 1 text rest with
  | some (list, rest) => .ok {
      statement := .template (String.ofList (trim (joinLines list.inside)))
      scopes := scopes
      rest := rest
      remark := if allBlank list.trailer then none else some .textAfterTemplate }
  | none => .error ⟨.template, []⟩

/-- Reads a declaration: a statement that opens no scope and is no comment or directive. -/
def readDeclaration (raw line : Line) (number : Int) (scopes : List Scope) (rest : List Line) :
    Except Fault Read :=
  let keep (result : Except Fault (Statement × List Line)) : Except Fault Read :=
    result.map fun (statement, rest) => { statement, scopes, rest }
  let record := if Record.mayHaveBody line then Record.opening? line else none
  match Alias.pointer? line with
  | some head => keep (Alias.readPointer head rest)
  | none =>
    match record.filter fun _ => startsWith "typedef".toList line with
    | some opening => keep (Record.read opening raw number rest)
    | none =>
      match Alias.definition? line with
      | some statement => .ok { statement, scopes, rest }
      | none =>
        if startsWith "using".toList line then keep (Alias.readUsing line rest)
        else
          match Alias.forward? line with
          | some statement => .ok { statement, scopes, rest }
          | none =>
            match record with
            | some opening => keep (Record.read opening raw number rest)
            | none => (Member.read line rest).map fun (statement, bare, rest) => {
                statement, scopes, rest
                remark := if bare then some (.unknownStatement statement.value.toList) else none }

/-- Reads a statement that is no comment or directive. -/
def readCode (mode : Mode) (raw line : Line) (number : Int) (scopes : List Scope)
    (rest : List Line) : Except Fault Read :=
  if mode.enumerators then
    match Enumerator.read? line with
    | some head => .ok { statement := .var head, scopes, rest }
    | none => .ok { statement := .unknown (String.ofList line), scopes, rest }
  else if startsWithAny mode.ignored line || isAccessLabel line then
    (Block.skipStatement line rest).map fun rest => { statement := .other, scopes, rest }
  else if isLinkage line then
    let scopes := if endsWith ['\x7b'] line then .linkage :: scopes else scopes
    .ok { statement := .other, scopes, rest }
  else if startsWith ['\x7d'] line then .ok (readScopeEnd scopes rest)
  else if line = ['\x7b'] then .ok { statement := .other, scopes := .linkage :: scopes, rest }
  else
    match namespaceName? line with
    | some name =>
      .ok { statement := .namespaceBegin (String.ofList name), scopes := .named :: scopes, rest }
    | none =>
      match templateStart? line with
      | some text => readTemplate text scopes rest
      | none => readDeclaration raw line number scopes rest

/-- Reads the statement that the given line begins.  `number` is the number of that line, and
`rest` are the lines after it. -/
def readStatement (mode : Mode) (raw : Line) (number : Int) (scopes : List Scope)
    (rest : List Line) : Except Fault Read :=
  let line := trim raw
  if Comment.isForwardMarker line then .ok { statement := .doc "", scopes, rest }
  else if Directive.isImplementation line then
    .ok { statement := .other, scopes := [], rest := [] }
  else if startsWith "//".toList line then
    let (statement, rest) := Comment.readLines line rest
    .ok { statement, scopes, rest }
  else if startsWith "/*".toList line then
    (Comment.readBlock line rest).map fun (statement, rest) => { statement, scopes, rest }
  else if startsWith ['#'] line then
    let (statement, rest) := Directive.read line rest
    .ok { statement, scopes, rest }
  else readCode mode raw line number scopes rest

/-! ## One token -/

/-- The lines after the blank lines at the front. -/
def skipBlankLines (lines : List Line) : List Line := lines.dropWhile allBlank

/-- The log line about a large token. -/
def largeLine (token : Token) : LogLine :=
  ⟨.warning, "Token at " ++ toString token.beginLine ++ " seems very large " ++
    token.statement.value ++ " (" ++ toString token.height ++ " lines)"⟩

/-- The token of a statement, where the stream stands after it, and the log lines about it. -/
structure Advance where
  token : Token
  cursor : Cursor
  log : Log

/-- The token of a statement that was read from the given cursor. -/
def advance (c : Cursor) (spaces : Nat) (read : Read) : Advance :=
  let after := { c.moveTo (skipBlankLines read.rest) with scopes := read.scopes }
  let token : Token := ⟨read.statement, c.line, after.line, spaces⟩
  let remarks := match read.remark with
    | some remark => [remark.logLine ((c.moveTo read.rest).line - 1)]
    | none => []
  ⟨token, after, remarks ++ if token.isLarge then [largeLine token] else []⟩

/-- Reads the next token.  At the end of the text this is the eof token; a failure leaves the
stream where the reader gave up. -/
def step (mode : Mode) (c : Cursor) : Except (MalformedSource × Cursor) Advance :=
  match skipBlankLines c.rest with
  | [] =>
    let after := c.moveTo []
    if c.rest ≠ [] then .ok ⟨⟨.other, c.line, after.line, 0⟩, after, []⟩
    else
      match c.scopes with
      | scope :: _ => .error (⟨.scope scope, c.lastLine⟩, c)
      | [] => .ok ⟨⟨.eof, c.line, c.line, 0⟩, c, []⟩
  | raw :: rest =>
    let number := (c.moveTo (raw :: rest)).line
    match readStatement mode raw number c.scopes rest with
    | .ok read => .ok (advance c (indentation raw) read)
    | .error fault => .error (⟨fault.cause, c.lastLine⟩, c.moveTo fault.rest)

/-! ## Whole streams -/

/-- The beginning of a stream over some lines, the first of which has the given number. -/
def Cursor.start (first : Int) (lines : List Line) : Cursor := ⟨first, lines, []⟩

/-- The tokens from a cursor on, up to the eof token.  Each step takes a line, so the number of
lines bounds the number of steps. -/
def streamFrom (mode : Mode) : Nat → Cursor → Logged MalformedSource (List Token)
  | 0, c => Logged.fail ⟨.unfinished, c.lastLine⟩
  | fuel + 1, c =>
    match step mode c with
    | .error (e, _) => Logged.fail e
    | .ok next =>
      if next.token.statement = .eof then ⟨next.log, .ok [next.token]⟩
      else
        let later := streamFrom mode fuel next.cursor
        ⟨next.log ++ later.log, later.outcome.map (next.token :: ·)⟩

/-- The tokens of some lines, the first of which has the given number. -/
def stream (mode : Mode) (first : Int) (lines : List Line) : Logged MalformedSource (List Token) :=
  streamFrom mode (lines.length + 1) (.start first lines)

end HeaderApi.Token
