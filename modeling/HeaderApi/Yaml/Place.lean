import HeaderApi.Text.Lines
import HeaderApi.Text.Scan

/-!
# Places in a YAML text

A place is what is left of a text together with its line and column, since the structure of the
text is given by its columns.
-/

namespace HeaderApi.Yaml

open Text

/-- A place in a text. -/
structure Place where
  line : Nat
  column : Nat
  /-- Whether a new entry may begin here: a line has ended, or an entry has just been opened. -/
  fresh : Bool
  rest : List Char
  deriving DecidableEq, Repr, Inhabited

/-- The ends of lines. -/
def isBreak (c : Char) : Bool := c = '\n' || c = '\u2028' || c = '\u2029'

/-- Blanks and ends of lines. -/
def isSpace (c : Char) : Bool := c = ' ' || c = '\t' || isBreak c

/-- Whether a text ends or goes on with a blank. -/
def atSpace : List Char → Bool
  | [] => true
  | c :: _ => isSpace c

/-- The byte order mark takes no column. -/
def width (c : Char) : Nat := if c = '\uFEFF' then 0 else 1

/-- The columns that characters take. -/
def widthOf (cs : List Char) : Nat := (cs.filter (· ≠ '\uFEFF')).length

/-- Whether a text begins with the mark of a document's beginning or end. -/
def isMarker (cs : List Char) : Bool :=
  match after? ['-', '-', '-'] cs <|> after? ['.', '.', '.'] cs with
  | some rest => atSpace rest
  | none => false

namespace Place

/-- The place behind characters of the same line. -/
def past (p : Place) (taken : List Char) (rest : List Char) : Place :=
  ⟨p.line, p.column + widthOf taken, false, rest⟩

/-- Whether a document begins or ends at a place. -/
def atMarker (p : Place) : Bool := p.column = 0 && isMarker p.rest

/-- Whether nothing of the document is left. -/
def atEnd (p : Place) : Bool := p.rest = [] || p.atMarker

/-- Whether the given character stands at a place, followed by a blank. -/
def atIndicator (p : Place) (mark : Char) : Bool :=
  match p.rest with
  | [] => false
  | c :: rest => c = mark && atSpace rest

/-- The place behind a one-character indicator. -/
def pastIndicator (p : Place) (fresh : Bool) : Place :=
  ⟨p.line, p.column + 1, fresh, p.rest.drop 1⟩

/-- The place behind spaces, comments and ends of lines. -/
def skipFrom (inComment : Bool) (line column : Nat) (fresh : Bool) : List Char → Place
  | [] => ⟨line, column, fresh, []⟩
  | c :: rest =>
    if isBreak c then skipFrom false (line + 1) 0 true rest
    else if inComment || c = ' ' then skipFrom inComment line (column + width c) fresh rest
    else if c = '#' then skipFrom true line (column + 1) fresh rest
    else ⟨line, column, fresh, c :: rest⟩

/-- The next place at which something stands. -/
def skip (p : Place) : Place := skipFrom false p.line p.column p.fresh p.rest

end Place

/-- The characters that a text may hold. -/
def isAllowed (c : Char) : Bool :=
  let n := c.toNat
  n == 9 || n == 10 || n == 13 || (0x20 ≤ n && n ≤ 0x7E) || n == 0x85 ||
    (0xA0 ≤ n && n ≤ 0xFFFD) || 0x10000 ≤ n

/-- The beginning of a text; every end of line that is not a separator of its own becomes a line
feed, and a byte order mark in front is dropped. -/
def Place.start (cs : List Char) : Place :=
  let cs := (unifyNewlines cs).map fun c => if c = '\x85' then '\n' else c
  ⟨0, 0, true, match cs with | '\uFEFF' :: rest => rest | _ => cs⟩

end HeaderApi.Yaml
