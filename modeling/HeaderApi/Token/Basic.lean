import HeaderApi.Text.Lines

/-!
# Tokens

A header is read statement by statement.  A token is one statement together with the lines that
it covers.
-/

namespace HeaderApi

open Text

/-! ## Statements -/

/-- The kinds of records. -/
inductive RecordKind where
  | struct
  | union
  | enum
  deriving DecidableEq, Repr, Inhabited

/-- The keyword of a kind of record. -/
def RecordKind.label : RecordKind → String
  | .struct => "struct"
  | .union => "union"
  | .enum => "enum"

/-- The head of a function declaration. -/
structure FunctionHead where
  name : String
  type : String
  /-- The text between the parentheses. -/
  parameters : String
  immutable : Bool
  static : Bool
  constexpr : Bool
  /-- The number of reference marks behind the parameters. -/
  reference : Nat
  deriving DecidableEq, Repr, Inhabited

/-- A variable declaration or an enumerator. -/
structure VariableHead where
  name : String
  type : String
  initializer : Option String
  doc : Option String
  static : Bool
  constexpr : Bool
  deriving DecidableEq, Repr, Inhabited

/-- A record with the lines of its body. -/
structure RecordHead where
  kind : RecordKind
  name : String
  base : String
  body : List Line
  /-- The number of the first line of the body. -/
  bodyBegin : Int
  deriving DecidableEq, Repr, Inhabited

/-- One statement of a header. -/
inductive Statement where
  | doc (text : String)
  | comment
  /-- A statement without any content of interest. -/
  | other
  | directive (text : String)
  | definition (name : String) (parameters doc value : Option String)
  | namespaceBegin (name : String)
  | namespaceEnd
  | template (parameters : String)
  | callback (name type parameters : String)
  | typeAlias (name type : String)
  | forward (name : String)
  | record (head : RecordHead)
  | function (head : FunctionHead)
  | var (head : VariableHead)
  | unknown (text : String)
  | eof
  deriving DecidableEq, Repr, Inhabited

namespace Statement

/-- The name of the kind of statement. -/
def label : Statement → String
  | .doc _ => "doc"
  | .comment => "comment"
  | .other => "other"
  | .directive _ => "directive"
  | .definition _ _ _ _ => "def"
  | .namespaceBegin _ => "namespace"
  | .namespaceEnd => "end"
  | .template _ => "template"
  | .callback _ _ _ => "callback"
  | .typeAlias _ _ => "alias"
  | .forward _ => "forward"
  | .record head => head.kind.label
  | .function _ => "function"
  | .var _ => "var"
  | .unknown _ => "unknown"
  | .eof => "eof"

/-- The name that a statement declares, or the text that it carries. -/
def value : Statement → String
  | .doc text => text
  | .directive text => text
  | .definition name _ _ _ => name
  | .namespaceBegin name => name
  | .callback name _ _ => name
  | .typeAlias name _ => name
  | .forward name => name
  | .record head => head.name
  | .function head => head.name
  | .var head => head.name
  | .unknown text => text
  | _ => ""

/-- The number of lines that a statement of its kind normally stays within, if there is one. -/
def lineLimit? : Statement → Option Nat
  | .record ⟨.enum, _, _, _, _⟩ => some 200
  | .record ⟨.union, _, _, _, _⟩ => some 100
  | .record ⟨.struct, _, _, _, _⟩ => none
  | .function _ | .callback _ _ _ | .definition _ _ _ _ => some 30
  | .doc _ | .comment | .other | .directive _ | .namespaceBegin _ | .eof => none
  | .namespaceEnd | .template _ | .typeAlias _ _ | .forward _ | .var _ | .unknown _ => some 10

end Statement

/-! ## Tokens -/

/-- One statement and the lines from `beginLine` up to, but not including, `endLine`. -/
structure Token where
  statement : Statement
  beginLine : Int
  endLine : Int
  /-- The indentation of the first line. -/
  spaces : Nat
  deriving DecidableEq, Repr, Inhabited

/-- The number of lines that a token covers. -/
def Token.height (token : Token) : Int := token.endLine - token.beginLine

/-- Whether a token covers more lines than is normal for its kind. -/
def Token.isLarge (token : Token) : Bool :=
  match token.statement.lineLimit? with
  | some limit => limit < token.height
  | none => false

/-! ## Malformed sources -/

/-- The scopes that a statement may leave open. -/
inductive Scope where
  | named
  | linkage
  deriving DecidableEq, Repr, Inhabited

/-- The name of a scope. -/
def Scope.label : Scope → String
  | .named => "namespace"
  | .linkage => "extern"

/-- What a source lacks. -/
inductive Malformation where
  | comment
  | template
  | parameters
  | typeAlias
  | body
  | constructorInitializer
  | statement
  | initializer
  | bodyOf (name : String)
  | scope (kind : Scope)
  /-- A mark that a reader takes to be on a line is not there. -/
  | absent (mark : Char)
  /-- The steps that were allowed for a reading ran out. -/
  | unfinished
  deriving DecidableEq, Repr, Inhabited

/-- Whether a malformation says something about the source.  The others would be slips of a
reader. -/
def Malformation.isOfSource : Malformation → Bool
  | .absent _ | .unfinished => false
  | _ => true

/-- The description of a malformation. -/
def Malformation.text : Malformation → String
  | .comment => "unterminated comment"
  | .template => "unterminated template parameter list"
  | .parameters => "unterminated parameter list"
  | .typeAlias => "unterminated alias"
  | .body => "unterminated body"
  | .constructorInitializer => "unterminated constructor initializer"
  | .statement => "unterminated statement"
  | .initializer => "unterminated initializer"
  | .bodyOf name => "expected body for " ++ name
  | .scope kind => "unclosed " ++ kind.label ++ " block"
  | .absent mark => "no " ++ mark.toString ++ " found"
  | .unfinished => "unfinished reading"

/-- A malformation and the number of the line where the source ends. -/
structure MalformedSource where
  cause : Malformation
  line : Int
  deriving DecidableEq, Repr, Inhabited

/-- The message of a malformed source. -/
def MalformedSource.message (e : MalformedSource) : String :=
  "Malformed source at line " ++ toString e.line ++ ": " ++ e.cause.text

/-! ## Reading from lines -/

/-- A reader that failed: the cause, and the lines that were left when it gave up. -/
structure Fault where
  cause : Malformation
  rest : List Line
  deriving DecidableEq, Repr, Inhabited

/-- The outcome of reading from the front of some lines: a result and the lines left, or a
fault. -/
abbrev Reading (α : Type) := Except Fault (α × List Line)

end HeaderApi
