import HeaderApi.Yaml.Place
import HeaderApi.Yaml.Plain

/-!
# Scalars

The texts of plain, quoted and block scalars, and the places behind them.
-/

namespace HeaderApi.Yaml

/-- Joins what two lines hold at the line's end: one end of line becomes a space, and of several
the first is dropped. -/
def foldBreaks (first : Char) (others : List Char) : List Char :=
  if first ≠ '\n' then first :: others
  else if others = [] then [' ']
  else others

/-! ## Plain scalars -/

namespace Plain

/-- The characters that structure a list or table on one line. -/
def isFlowMark (c : Char) : Bool :=
  c = ',' || c = '[' || c = ']' || c = '\x7b' || c = '\x7d'

/-- Whether a colon in front of the given text separates a key from its value. -/
def endsKey (flow : Bool) : List Char → Bool
  | [] => true
  | c :: _ => isSpace c || (flow && isFlowMark c)

/-- The characters up to the next blank or mark, and the rest. -/
def chunk (flow : Bool) : List Char → List Char × List Char
  | [] => ([], [])
  | c :: rest =>
    if isSpace c || (c = ':' && endsKey flow rest) || (flow && (isFlowMark c || c = '?')) then
      ([], c :: rest)
    else
      let (taken, tail) := chunk flow rest
      (c :: taken, tail)

/-- The ends of lines among spaces, and the place behind them.  A marker stops them. -/
def breaksFrom (line column : Nat) : List Char → List Char × Place
  | [] => ([], ⟨line, column, true, []⟩)
  | c :: rest =>
    if column = 0 && isMarker (c :: rest) then ([], ⟨line, column, true, c :: rest⟩)
    else if c = ' ' then breaksFrom line (column + 1) rest
    else if isBreak c then
      let (breaks, p) := breaksFrom (line + 1) 0 rest
      (c :: breaks, p)
    else ([], ⟨line, column, true, c :: rest⟩)

/-- What stands between two chunks of a scalar. -/
def gap (p : Place) : List Char × Place :=
  let spaces := p.rest.takeWhile (· = ' ')
  let q := p.past spaces (p.rest.dropWhile (· = ' '))
  match q.rest with
  | [] => (spaces, q)
  | c :: rest =>
    if isBreak c then
      let (breaks, q) := breaksFrom (q.line + 1) 0 rest
      (foldBreaks c breaks, q)
    else (spaces, q)

/-- Whether a scalar ends at the place behind a gap. -/
def endsAfter (flow : Bool) (parent : Int) (gap : List Char) (p : Place) : Bool :=
  gap = [] || p.rest.head? = some '#' || (!flow && p.column ≤ parent) || p.atMarker

/-- The text of a scalar behind a separator.  The fuel bounds the number of chunks. -/
def textFrom (flow : Bool) (parent : Int) : Nat → List Char → Place → List Char × Place
  | 0, _, p => ([], p)
  | fuel + 1, separator, p =>
    let (taken, rest) := chunk flow p.rest
    if taken = [] then ([], p)
    else
      let (between, q) := gap (p.past taken rest)
      if endsAfter flow parent between q then (separator ++ taken, q)
      else
        let (more, q) := textFrom flow parent fuel between q
        (separator ++ taken ++ more, q)

/-- The text of a plain scalar in a block whose column is `parent`, and the place behind it.  On
later lines it must stand deeper. -/
def text (flow : Bool) (parent : Int) (p : Place) : List Char × Place :=
  textFrom flow parent (p.rest.length + 1) [] p

/-- The characters that cannot begin a plain scalar, some of them unless more follows. -/
def indicators : List Char := "-?:,[]\x7b\x7d#&*!|>'\"%@".toList ++ [Char.ofNat 0x60]

/-- Whether a plain scalar begins here. -/
def starts (flow : Bool) : List Char → Bool
  | [] => false
  | c :: rest =>
    !(isSpace c || indicators.contains c) ||
      (!atSpace rest && (c = '-' || (!flow && (c = '?' || c = ':'))))

end Plain

/-! ## Quoted scalars -/

namespace Quoted

/-- The ends of lines among blanks.  A marker may not stand in a quoted scalar. -/
def breaksFrom (line column : Nat) : List Char → Option (List Char × Place)
  | [] => some ([], ⟨line, column, false, []⟩)
  | c :: rest =>
    if column = 0 && isMarker (c :: rest) then none
    else if c = ' ' || c = '\t' then breaksFrom line (column + 1) rest
    else if isBreak c then (breaksFrom (line + 1) 0 rest).map fun (breaks, p) => (c :: breaks, p)
    else some ([], ⟨line, column, false, c :: rest⟩)

/-- Blanks inside quotes; those around an end of line are dropped. -/
def blanks (p : Place) : Option (List Char × Place) :=
  let taken := p.rest.takeWhile fun c => c = ' ' || c = '\t'
  let q := p.past taken (p.rest.dropWhile fun c => c = ' ' || c = '\t')
  match q.rest with
  | [] => none
  | c :: rest =>
    if isBreak c then
      (breaksFrom (q.line + 1) 0 rest).map fun (breaks, q) => (foldBreaks c breaks, q)
    else some (taken, q)

/-- A text in single quotes behind its opening quote.  A quote is written twice. -/
def single : Nat → Place → Option (List Char × Place)
  | 0, _ => none
  | fuel + 1, p =>
    match p.rest with
    | [] => none
    | '\'' :: '\'' :: rest =>
      (single fuel (p.past ['\'', '\''] rest)).map fun (cs, q) => ('\'' :: cs, q)
    | '\'' :: rest => some ([], p.past ['\''] rest)
    | c :: rest =>
      if isSpace c then do
        let (gap, q) ← blanks p
        let (cs, q) ← single fuel q
        return (gap ++ cs, q)
      else (single fuel (p.past [c] rest)).map fun (cs, q) => (c :: cs, q)

/-- The character that a one-letter escape stands for. -/
def escape? : Char → Option Char
  | '0' => some (Char.ofNat 0)
  | 'a' => some '\x07'
  | 'b' => some '\x08'
  | 't' | '\t' => some '\t'
  | 'n' => some '\n'
  | 'v' => some '\x0b'
  | 'f' => some '\x0c'
  | 'r' => some '\r'
  | 'e' => some '\x1b'
  | ' ' => some ' '
  | '"' => some '"'
  | '\\' => some '\\'
  | '/' => some '/'
  | 'N' => some '\x85'
  | '_' => some '\xa0'
  | 'L' => some '\u2028'
  | 'P' => some '\u2029'
  | _ => none

/-- The number of hexadecimal digits behind an escape letter. -/
def hexLength? : Char → Option Nat
  | 'x' => some 2
  | 'u' => some 4
  | 'U' => some 8
  | _ => none

/-- The character that hexadecimal digits stand for. -/
def hexChar? (n : Nat) (cs : List Char) : Option Char :=
  let ds := cs.take n
  if ds.length = n && ds.all Plain.isHex then some (Char.ofNat (Plain.number 16 ds)) else none

/-- What an escape stands for, given what follows the backslash, and the place behind it.  An
escaped end of line stands for nothing. -/
def escaped (p : Place) : Option (List Char × Place) :=
  match p.rest with
  | [] => none
  | c :: rest =>
    match escape? c, hexLength? c with
    | some e, _ => some ([e], p.past [c] rest)
    | none, some n =>
      (hexChar? n rest).map fun e => ([e], p.past (c :: rest.take n) (rest.drop n))
    | none, none => if isBreak c then breaksFrom (p.line + 1) 0 rest else none

/-- A text in double quotes behind its opening quote. -/
def double : Nat → Place → Option (List Char × Place)
  | 0, _ => none
  | fuel + 1, p =>
    match p.rest with
    | [] => none
    | '"' :: rest => some ([], p.past ['"'] rest)
    | '\\' :: rest => do
      let (e, q) ← escaped (p.past ['\\'] rest)
      let (cs, q) ← double fuel q
      return (e ++ cs, q)
    | c :: rest =>
      if isSpace c then do
        let (gap, q) ← blanks p
        let (cs, q) ← double fuel q
        return (gap ++ cs, q)
      else (double fuel (p.past [c] rest)).map fun (cs, q) => (c :: cs, q)

/-- The text of a quoted scalar and the place behind it, at its opening quote. -/
def text (p : Place) : Option (List Char × Place) :=
  match p.rest with
  | '\'' :: rest => single (rest.length + 1) (p.past ['\''] rest)
  | '"' :: rest => double (rest.length + 1) (p.past ['"'] rest)
  | _ => none

end Quoted

/-! ## Block scalars -/

namespace Block

/-- What is kept of the ends of lines at the end of a block. -/
inductive Chomping where
  | strip
  | clip
  | keep
  deriving DecidableEq, Repr, Inhabited

/-- The form of a block: whether its lines are joined, what is kept at its end, and by how much it
is indented when that is written. -/
structure Form where
  folded : Bool
  chomping : Chomping := .clip
  increment : Option Nat := none
  deriving DecidableEq, Repr, Inhabited

/-- A mark for the end of a block. -/
def chomping? : Char → Option Chomping
  | '-' => some .strip
  | '+' => some .keep
  | _ => none

/-- A mark for the indentation of a block. -/
def increment? (c : Char) : Option Nat :=
  if '1' ≤ c && c ≤ '9' then some (c.toNat - '0'.toNat) else none

/-- The form that the marks behind the indicator of a block give, and what follows them. -/
def form (folded : Bool) : List Char → Form × List Char
  | [] => (⟨folded, .clip, none⟩, [])
  | c :: rest =>
    match chomping? c, increment? c with
    | some chomping, _ =>
      match rest with
      | d :: tail =>
        match increment? d with
        | some n => (⟨folded, chomping, some n⟩, tail)
        | none => (⟨folded, chomping, none⟩, rest)
      | [] => (⟨folded, chomping, none⟩, [])
    | none, some n =>
      match rest with
      | d :: tail =>
        match chomping? d with
        | some chomping => (⟨folded, chomping, some n⟩, tail)
        | none => (⟨folded, .clip, some n⟩, rest)
      | [] => (⟨folded, .clip, some n⟩, [])
    | none, none => (⟨folded, .clip, none⟩, c :: rest)

/-- What follows the line of a block's indicator; only a comment may stand on it. -/
def afterHeader? (cs : List Char) : Option (List Char) :=
  match cs.dropWhile (· = ' ') with
  | [] => some []
  | c :: rest =>
    if isBreak c then some rest
    else if c = '#' && cs.head? = some ' ' then
      some ((rest.dropWhile fun c => !isBreak c).drop 1)
    else none

/-- The ends of lines in front of a block, the deepest column among its spaces, and the place
behind them. -/
def leading (line column deepest : Nat) : List Char → List Char × Nat × Place
  | [] => ([], deepest, ⟨line, column, true, []⟩)
  | c :: rest =>
    if c = ' ' then leading line (column + 1) (max deepest (column + 1)) rest
    else if isBreak c then
      let (breaks, deepest, p) := leading (line + 1) 0 deepest rest
      (c :: breaks, deepest, p)
    else ([], deepest, ⟨line, column, true, c :: rest⟩)

/-- The ends of lines up to the next line of a block, and the place at its indentation. -/
def breaksFrom (indent : Nat) (line column : Nat) : List Char → List Char × Place
  | [] => ([], ⟨line, column, true, []⟩)
  | c :: rest =>
    if c = ' ' && column < indent then breaksFrom indent line (column + 1) rest
    else if isBreak c then
      let (breaks, p) := breaksFrom indent (line + 1) 0 rest
      (c :: breaks, p)
    else ([], ⟨line, column, true, c :: rest⟩)

/-- Whether a line of a block begins with a blank. -/
def isIndented (cs : List Char) : Bool := cs.head?.any fun c => c = ' ' || c = '\t'

/-- Whether a line of a block begins here. -/
def atLine (indent : Nat) (p : Place) : Bool := p.column = indent && p.rest ≠ []

/-- What stands between two lines of a block. -/
def joint (folded : Bool) (line next lineBreak breaks : List Char) : List Char :=
  if folded && lineBreak = ['\n'] && !isIndented line && !isIndented next then
    if breaks = [] then [' '] else []
  else lineBreak

/-- The lines of a block, the end of its last line, the ends of lines behind it, and the place
behind them.  The fuel bounds the number of lines. -/
def linesFrom (folded : Bool) (indent : Nat) :
    Nat → List Char → Place → List Char × List Char × List Char × Place
  | 0, breaks, p => ([], [], breaks, p)
  | fuel + 1, breaks, p =>
    if !atLine indent p then ([], [], breaks, p)
    else
      let line := p.rest.takeWhile fun c => !isBreak c
      let rest := p.rest.dropWhile fun c => !isBreak c
      let lineBreak := rest.take 1
      let (later, q) := match rest with
        | [] => ([], p.past line [])
        | _ :: tail => breaksFrom indent (p.line + 1) 0 tail
      if atLine indent q then
        let (more, last, final, q') := linesFrom folded indent fuel later q
        (breaks ++ line ++ joint folded line q.rest lineBreak later ++ more, last, final, q')
      else (breaks ++ line, lineBreak, later, q)

/-- What is kept of the end of a block. -/
def chomp (chomping : Chomping) (last breaks : List Char) : List Char :=
  match chomping with
  | .strip => []
  | .clip => last
  | .keep => last ++ breaks

/-- The text of a block scalar in a block whose column is `parent`, and the place behind it, at
its indicator. -/
def text (parent : Int) (p : Place) : Option (List Char × Place) := do
  let (form, rest) := form (p.rest.head? = some '>') (p.rest.drop 1)
  let rest ← afterHeader? rest
  let least := max (parent + 1).toNat 1
  let line := p.line + 1
  let (breaks, indent, start) := match form.increment with
    | some n =>
      let indent := least + n - 1
      let (breaks, q) := breaksFrom indent line 0 rest
      (breaks, indent, q)
    | none =>
      let (breaks, deepest, q) := leading line 0 0 rest
      (breaks, max least deepest, q)
  let (content, last, final, q) := linesFrom form.folded indent (rest.length + 1) breaks start
  return (content ++ chomp form.chomping last final, { q with fresh := true })

end Block

end HeaderApi.Yaml
