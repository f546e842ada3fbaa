import HeaderApi.Entry.Group
import HeaderApi.Header.Basic
import HeaderApi.Parameter.Reader
import HeaderApi.Text.Quoted
import HeaderApi.Token.Stream

/-!
# From tokens to a header

The tokens of a file are grouped into entries.  A doc comment documents the declaration directly
behind it; any other doc comment floats.  The bodies of records are read in turn.
-/

namespace HeaderApi

open Text

/-! ## Options and errors -/

/-- What becomes of doc comments that document no declaration. -/
inductive FloatingDocs where
  | discard
  /-- They are added to the doc of the file. -/
  | append
  deriving DecidableEq, Repr, Inhabited

/-- The name of a policy. -/
def FloatingDocs.label : FloatingDocs → String
  | .discard => "discard"
  | .append => "append"

/-- How a header is read. -/
structure ParseOptions where
  storeLineNumbers : Bool := false
  tolerateUnknown : Bool := false
  floatingDocs : FloatingDocs := .discard
  deriving DecidableEq, Repr, Inhabited

/-- A reason why a source gives no header. -/
inductive ParseError where
  | malformed (e : MalformedSource)
  /-- A token that gives no entry. -/
  | unexpected (kind : String) (line : Int) (detail : String)
  deriving DecidableEq, Repr, Inhabited

/-- The message of an error. -/
def ParseError.message : ParseError → String
  | .malformed e => e.message
  | .unexpected kind line detail =>
    "Unexpected " ++ kind ++ " at line " ++ toString line ++
      if detail = "" then "" else ": " ++ detail

namespace Header

/-! ## The state of the grouping -/

/-- A doc comment or a template that waits for its declaration. -/
structure Pending where
  text : String
  beginLine : Int
  endLine : Int
  deriving DecidableEq, Repr, Inhabited

/-- What is known of a file while its tokens are read. -/
structure Builder where
  /-- The name of the file, used in log lines. -/
  name : String
  options : ParseOptions
  /-- Whether a declaration has come. -/
  declared : Bool := false
  doc : String := ""
  docBegin : Option Int := none
  docEnd : Option Int := none
  entriesBegin : Option Int := none
  entriesEnd : Option Int := none
  includes : List String := []
  localIncludes : List String := []
  entries : Entries := []
  pendingDoc : Option Pending := none
  template : Option Pending := none

/-- A log line about a line of the file. -/
def Builder.note (b : Builder) (level : Level) (line : Int) (text : String) : LogLine :=
  ⟨level, b.name ++ ":" ++ toString line ++ ": " ++ text⟩

/-- Takes in a doc comment that documents no declaration.  The first one before all declarations
is the doc of the file. -/
def Builder.floatDoc (b : Builder) (doc : Pending) : Builder × Log :=
  if !b.declared && b.doc = "" then
    ({ b with doc := doc.text, docBegin := some doc.beginLine, docEnd := some doc.endLine }, [])
  else if b.options.floatingDocs = .append && doc.text ≠ "" then
    ({ b with doc := if b.doc = "" then doc.text else b.doc ++ "\n\n" ++ doc.text }, [])
  else (b, [b.note .debug doc.beginLine "discarding floating doc"])

/-- Lets the waiting doc comment float. -/
def Builder.floatPending (b : Builder) : Builder × Log :=
  match b.pendingDoc with
  | some doc => { b with pendingDoc := none }.floatDoc doc
  | none => (b, [])

/-- The include that a directive names, and whether it is quoted. -/
def include? (directive : List Char) : Option (Bool × List Char) := do
  let text := trimStart (← Directive.keyword? "include".toList directive)
  let isQuoted ← match text.head? with
    | some '<' => some false
    | some '"' => some true
    | _ => none
  let isName c := c ≠ '>' && c ≠ '"'
  let name := text.tail.takeWhile isName
  if name ≠ [] && text.tail.dropWhile isName ≠ [] then some (isQuoted, name) else none

/-- Takes in the include of a directive. -/
def Builder.addInclude (b : Builder) (directive : String) : Builder :=
  match include? directive.toList with
  | some (true, name) => { b with localIncludes := b.localIncludes ++ [String.ofList name] }
  | some (false, name) => { b with includes := b.includes ++ [String.ofList name] }
  | none => b

/-! ## Entries of declarations -/

/-- `some true` for true and nothing for false. -/
def flag (b : Bool) : Option Bool := if b then some true else none

/-- The type of an entry, in its one spelling. -/
def typeField (type : String) : Option String :=
  if type = "" then none else some (String.ofList (Spelling.normalize type.toList))

/-- The signature of a declaration, without doc, template and lines; `none` for a statement that
declares nothing. -/
def signature? : Statement → Option Signature
  | .typeAlias name type => some { name, kind := .typeAlias, type := typeField type }
  | .callback name type parameters => some {
      name, kind := .callback, type := typeField type
      parameters := some (Parameter.parseList parameters.toList) }
  | .definition name parameters doc value => some {
      name, kind := .definition, doc := doc.getD "", value
      parameters := parameters.map fun text => Parameter.bareNames text.toList }
  | .forward name => some { name, kind := .forward }
  | .record head => some {
      name := head.name
      kind := match head.kind with
        | .struct => .struct
        | .union => .union
        | .enum => .enum
      type := typeField head.base }
  | .function head => some {
      name := head.name, kind := .function, type := typeField head.type
      parameters := some (Parameter.parseList head.parameters.toList)
      immutable := flag head.immutable, constexpr := flag head.constexpr, static := flag head.static
      reference := if head.reference = 0 then none else some head.reference }
  | .var head => some {
      name := head.name, kind := .var, doc := head.doc.getD "", type := typeField head.type
      constexpr := flag head.constexpr, static := flag head.static, value := head.initializer }
  | _ => none

/-- The lines of an entry that begins with a doc comment or a template. -/
def withLines (options : ParseOptions) (beginLine : Int) (token : Token) (s : Signature) :
    Signature :=
  if options.storeLineNumbers then
    { s with
      beginLine := some beginLine, declLine := some token.beginLine, endLine := some token.endLine }
  else s

/-- The signature of a declaration with its doc comment and template. -/
def complete (options : ParseOptions) (doc template : Option Pending) (token : Token)
    (s : Signature) : Signature :=
  let beginLine := match doc, template with
    | some d, _ => d.beginLine
    | none, some t => t.beginLine
    | none, none => token.beginLine
  withLines options beginLine token { s with
    doc := (doc.map Pending.text).getD s.doc
    template := template.map fun t => Parameter.parseList t.text.toList }

/-- The doc comment that waits, if it ends where a declaration begins. -/
def Builder.docFor (b : Builder) (line : Int) : Option Pending :=
  b.pendingDoc.filter fun doc => doc.endLine = line

/-- The log line about a duplicate. -/
def Builder.duplicateLine (b : Builder) (entry : Entry) : LogLine :=
  ⟨.debug, b.name ++ ": ignoring duplicate " ++ entry.kind.label ++ " " ++ entry.name⟩

/-- Takes in an entry, or the members of a record without a name. -/
def Builder.addEntry (b : Builder) (entry : Entry) : Builder × Log :=
  let (entries, duplicates) := b.entries.addAll entry.hoisted
  ({ b with entries }, duplicates.map b.duplicateLine)

/-- Notes that a declaration has come which begins at the given line. -/
def Builder.markDeclared (b : Builder) (beginLine : Int) : Builder :=
  if b.declared then b
  else { b with declared := true, entriesBegin := b.entriesBegin <|> some beginLine }

/-- Writes log lines. -/
def writeAll (log : Log) : Logged ParseError Unit := ⟨log, .ok ()⟩

/-- The line at which a declaration begins: that of its template, or its own. -/
def Builder.firstLine (b : Builder) (token : Token) : Int :=
  (b.template.map Pending.beginLine).getD token.beginLine

/-- Takes the waiting doc comment for a declaration, or lets it float. -/
def Builder.takeDoc (b : Builder) (doc : Option Pending) : Builder × Log :=
  if doc.isSome then ({ b with pendingDoc := none }, []) else b.floatPending

/-- The members of a declaration, which only a record has.  `members` reads the body of one. -/
def bodyOf (members : String → RecordHead → Logged ParseError Entries) (name : String)
    (token : Token) : Logged ParseError (Option Entries) :=
  match token.statement with
  | .record head => some <$> members name head
  | _ => pure none

/-- Takes in the entry of a declaration with its doc comment and its members. -/
def Builder.enter (b : Builder) (doc : Option Pending) (token : Token) (s : Signature)
    (body : Option Entries) : Builder × Log :=
  let beginLine := (doc.map Pending.beginLine).getD (b.firstLine token)
  ({ b with template := none }.markDeclared beginLine).addEntry
    ⟨complete b.options doc b.template token s, body⟩

/-- Takes in a declaration.  `members` reads the body of a record. -/
def Builder.declare (members : String → RecordHead → Logged ParseError Entries) (b : Builder)
    (token : Token) (s : Signature) : Logged ParseError Builder := do
  let doc := b.docFor (b.firstLine token)
  let (b, log) := b.takeDoc doc
  writeAll log
  let body ← bodyOf members b.name token
  let (b, log) := b.enter doc token s body
  writeAll log
  return b

/-! ## Other tokens -/

/-- Fails when a template waits for its declaration. -/
def Builder.checkTemplate (b : Builder) (detail : String) : Logged ParseError Unit :=
  match b.template with
  | some t => Logged.fail (.unexpected "template" t.beginLine detail)
  | none => pure ()

/-- The error or log line of a statement that is not understood. -/
def Builder.unknown (b : Builder) (line : Int) (text : String) : Logged ParseError Unit :=
  if b.options.tolerateUnknown then
    writeAll [b.note .warning line
      ("skipping unknown statement " ++ String.ofList (quoted text.toList))]
  else Logged.fail (.unexpected "unknown" line text)

/-- Drops a template before a statement that is not understood. -/
def Builder.dropTemplate (b : Builder) : Builder × Log :=
  match b.template with
  | some t => ({ b with template := none },
      [b.note .warning t.beginLine "dropping template followed by unknown statement"])
  | none => (b, [])

/-- Takes in a statement that declares nothing. -/
def Builder.pass (b : Builder) (token : Token) : Logged ParseError Builder := do
  match token.statement with
  | .unknown text =>
    if b.options.tolerateUnknown then
      let (b, log) := b.dropTemplate
      writeAll log
      let (b, log) := b.floatPending
      writeAll log
      b.unknown token.beginLine text
      return b
    else
      b.checkTemplate ("template followed by " ++ token.statement.label)
      let (b, log) := b.floatPending
      writeAll log
      b.unknown token.beginLine text
      return b
  | statement =>
    b.checkTemplate ("template followed by " ++ statement.label)
    let (b, log) := b.floatPending
    writeAll log
    match statement with
    | .namespaceBegin _ => return { b with entriesBegin := some token.endLine }
    | .directive text => return b.addInclude text
    | _ => return b

/-! ## Token streams -/

/-- Reads tokens up to the end of the file or of the first namespace. -/
def Builder.run (members : String → RecordHead → Logged ParseError Entries) :
    List Token → Builder → Logged ParseError Builder
  | [], b => pure b
  | token :: tokens, b => do
    match token.statement with
    | .eof => return { b with entriesEnd := some token.beginLine }
    | .namespaceEnd => return { b with entriesEnd := some token.beginLine }
    | .doc text =>
      let (b, log) := b.floatPending
      writeAll log
      run members tokens { b with pendingDoc := some ⟨text, token.beginLine, token.endLine⟩ }
    | .template text =>
      b.checkTemplate ("template followed by " ++ token.statement.label)
      run members tokens { b with template := some ⟨text, token.beginLine, token.endLine⟩ }
    | statement =>
      match signature? statement with
      | some s =>
        let b ← b.declare members token s
        run members tokens b
      | none =>
        let b ← b.pass token
        run members tokens b

/-- Reads tokens; a template without a declaration is an error. -/
def Builder.runAll (members : String → RecordHead → Logged ParseError Entries)
    (tokens : List Token) (b : Builder) : Logged ParseError Builder := do
  let b ← b.run members tokens
  b.checkTemplate "template without declaration"
  return b

/-- The members of a record, read from its body.  The fuel bounds how deep bodies nest. -/
def membersOf (options : ParseOptions) : Nat → String → RecordHead → Logged ParseError Entries
  | 0, _, head => Logged.fail (.malformed ⟨.unfinished, head.bodyBegin⟩)
  | fuel + 1, name, head => do
    let tokens ← (Token.stream { enumerators := head.kind = .enum } head.bodyBegin
      head.body).mapError ParseError.malformed
    let b ← Builder.runAll (membersOf options fuel) tokens
      { name := name ++ ":" ++ head.name, options, declared := true }
    return b.entries

/-- The size of some lines: their characters and their ends. -/
def weight (lines : List Line) : Nat := (lines.flatMap fun line => line ++ ['\n']).length

/-- The lines of the body of a token, whose size bounds how deep bodies nest in it. -/
def bodyLines (token : Token) : List Line :=
  match token.statement with
  | .record head => head.body
  | _ => []

/-- The header that a builder has gathered. -/
def Builder.header (b : Builder) : Header :=
  let lines (n : Option Int) := if b.options.storeLineNumbers then n else none
  { name := b.name
    doc := b.doc
    entries := b.entries
    includes := if b.includes = [] then none else some b.includes
    localIncludes := if b.localIncludes = [] then none else some b.localIncludes
    docBegin := lines b.docBegin
    docEnd := lines b.docEnd
    entriesBegin := lines b.entriesBegin
    entriesEnd := lines b.entriesEnd }

/-- The header of a token stream. -/
def ofTokens (name : String) (options : ParseOptions) (tokens : List Token) :
    Logged ParseError Header := do
  let fuel := weight (tokens.flatMap bodyLines) + 1
  let b ← Builder.runAll (membersOf options fuel) tokens { name, options }
  return b.header

/-- The header of some lines. -/
def ofLines (name : String) (options : ParseOptions) (lines : List Line) :
    Logged ParseError Header := do
  let tokens ← (Token.stream {} 1 lines).mapError ParseError.malformed
  ofTokens name options tokens

end Header

end HeaderApi
