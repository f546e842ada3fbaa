import HeaderApi.Source.Closing
import HeaderApi.Text.Blank
import HeaderApi.Text.Scan
import HeaderApi.Token.Basic

/-!
# Text that runs over lines

Readers for the parts of a statement that may end on a later line: bracketed lists, braced bodies,
what follows a function's parameters, and statements that are passed over.
-/

namespace HeaderApi.Block

open Text Source

/-! ## Bracketed lists -/

/-- A bracketed list: its text line by line, and what follows the closing bracket on its line. -/
structure Enclosed where
  inside : List Line
  trailer : Line
  deriving DecidableEq, Repr

/-- Reads up to the bracket that closes an open one.  The text and the trimmed lines after it are
searched in turn, and the depth is carried from line to line. -/
def enclosed (opening closing : Char) (depth : Int) (text : Line) :
    List Line → Option (Enclosed × List Line)
  | [] =>
    match findClosing opening closing depth text with
    | .found inside after => some (⟨[inside], after⟩, [])
    | .missing _ => none
  | next :: rest =>
    match findClosing opening closing depth text with
    | .found inside after => some (⟨[inside], after⟩, next :: rest)
    | .missing depth => (enclosed opening closing depth (trim next) rest).map
        fun (e, rest) => (⟨text :: e.inside, e.trailer⟩, rest)

/-- Reads up to the parenthesis that closes an open one. -/
def parenthesized (text : Line) (rest : List Line) : Reading Enclosed :=
  match enclosed '(' ')' 1 text rest with
  | some result => .ok result
  | none => .error ⟨.parameters, []⟩

/-! ## Braced bodies -/

/-- The brace depth at the end of some code, or `none` when a closing brace brings it to zero. -/
def braceDepth : Int → List Char → Option Int
  | depth, [] => some depth
  | depth, c :: rest =>
    if c = '\x7b' then braceDepth (depth + 1) rest
    else if c = '\x7d' then if depth - 1 = 0 then none else braceDepth (depth - 1) rest
    else braceDepth depth rest

/-- Passes over a braced block whose first line is given: the lines after it up to and including
the one with the closing brace, and the lines left. -/
def braces (depth : Int) (inComment : Bool) (text : Line) :
    List Line → Option (List Line × List Line)
  | [] =>
    match braceDepth depth (strip text inComment).1 with
    | none => some ([], [])
    | some _ => none
  | next :: rest =>
    match braceDepth depth (strip text inComment).1 with
    | none => some ([], next :: rest)
    | some depth =>
      (braces depth (strip text inComment).2 next rest).map fun (passed, rest) =>
        (next :: passed, rest)

/-- Passes over the block that the first opening brace of a text begins: the text behind that
brace, the further lines of the block, and the lines left.  A fault stays at `here`. -/
def openBraces (here : List Line) (text : Line) (rest : List Line) :
    Except Fault (Line × List Line × List Line) :=
  match cutAt '\x7b' text with
  | none => .error ⟨.absent '\x7b', here⟩
  | some (_, inside) =>
    match braces 0 false ('\x7b' :: inside) rest with
    | some (passed, rest) => .ok (inside, passed, rest)
    | none => .error ⟨.body, here⟩

/-- The lines left after a braced block; a fault stays at `here`. -/
def afterBraces (here : List Line) (text : Line) (rest : List Line) : Except Fault (List Line) :=
  (openBraces here text rest).map fun (_, _, rest) => rest

/-! ## What follows a function's parameters -/

/-- Whether a line opens the body behind a constructor's initializer list. -/
def opensBody (text : Line) : Bool := startsWith ['\x7b'] text || endsWith ['\x7b'] text

/-- Looks for the line of a constructor's initializer list that opens its body: that line and the
lines after it. -/
def initializerBrace (text : Line) : List Line → Option (Line × List Line)
  | [] => if opensBody text then some (text, []) else none
  | next :: rest =>
    if opensBody text then some (text, next :: rest) else initializerBrace (trim next) rest

/-- Whether a line continues a function declaration without opening its body. -/
def continuesFunction (line : Line) : Bool :=
  startsWith ['='] line || line = "const".toList ||
    startsWithAny ["noexcept".toList, "override".toList] line

/-- Passes over what follows the parameters of a function: a body, an initializer list with a
body, or a semicolon.  The text is what follows on the current line, and `here` are the lines
after it. -/
def functionTail (here : List Line) (text : Line) : List Line → Except Fault (List Line)
  | [] =>
    if (code text).contains '\x7b' then afterBraces here (code text) here else .ok here
  | raw :: rest =>
    if (code text).contains '\x7b' then afterBraces here (code text) here
    else if (code text).contains ';' then .ok here
    else
      let line := trim raw
      if line = [] then functionTail here text rest
      else if startsWith ['\x7b'] line then afterBraces here line rest
      else if startsWith [':'] line then
        match initializerBrace line rest with
        | some (line, rest) => afterBraces here line rest
        | none => .error ⟨.constructorInitializer, here⟩
      else if continuesFunction line then functionTail rest line rest
      else .ok here

/-! ## Statements that are passed over -/

/-- How far a text opens more parentheses than it closes. -/
def parenthesisBalance (code : List Char) : Int := (code.count '(' : Int) - code.count ')'

/-- How far a text opens more braces than it closes. -/
def braceBalance (code : List Char) : Int := (code.count '\x7b' : Int) - code.count '\x7d'

/-- Whether the code of a line ends a statement. -/
def endsStatement (code : List Char) : Bool :=
  code.contains ';' || code.contains ':' || allBlank code

/-- Passes over a statement: lines are taken until the parentheses balance and the statement
ends. -/
def statement (depth : Int) (text : List Char) : List Line → Except Fault (List Line)
  | [] =>
    let depth := depth + parenthesisBalance text
    if depth ≤ 0 then .ok [] else .error ⟨.statement, []⟩
  | next :: rest =>
    let depth := depth + parenthesisBalance text
    if depth ≤ 0 && endsStatement text then .ok (next :: rest)
    else statement depth (code next) rest

/-- Passes over the statement that the given text begins. -/
def skipStatement (text : Line) (rest : List Line) : Except Fault (List Line) :=
  statement 0 (code text) rest

/-- The code of the lines up to the semicolon that ends an initializer outside braces. -/
def initializer (depth : Int) (inComment : Bool) : List Line → Reading (List Line)
  | [] => .error ⟨.initializer, []⟩
  | next :: rest =>
    let (text, inComment) := strip next inComment
    let depth := depth + braceBalance text
    if depth ≤ 0 && text.contains ';' then .ok ([trim text], rest)
    else (initializer depth inComment rest).map fun (parts, rest) => (trim text :: parts, rest)

end HeaderApi.Block
