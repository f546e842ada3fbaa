/-
# Lines

Splitting a text into lines at every line separator, and joining lines with line feeds.
-/

namespace HeaderApi.Text

/-- A line of text, held as its characters. -/
abbrev Line := List Char

/-- The characters that end a line.  A carriage return and the line feed after it end one line
together. -/
def isSeparator (c : Char) : Bool :=
  let n := c.toNat
  (10 ≤ n && n ≤ 13) || (28 ≤ n && n ≤ 30) || n == 0x85 || n == 0x2028 || n == 0x2029

/-- The lines of a text, given what the current line holds so far in reverse.  A separator at
the very end opens no further line. -/
def linesFrom : List Char → List Char → List Line
  | [], [] => []
  | held, [] => [held.reverse]
  | held, '\r' :: '\n' :: rest => held.reverse :: linesFrom [] rest
  | held, c :: rest =>
    if isSeparator c then held.reverse :: linesFrom [] rest else linesFrom (c :: held) rest

/-- The lines of a text. -/
def lines (cs : List Char) : List Line := linesFrom [] cs

@[simp] theorem lines_nil : lines [] = [] := by simp [lines, linesFrom]

/-- Lines joined with line feeds. -/
def joinLines (ls : List Line) : List Char := ['\n'].intercalate ls

@[simp] theorem joinLines_nil : joinLines [] = [] := rfl

@[simp] theorem joinLines_singleton (l : Line) : joinLines [l] = l := by
  simp [joinLines, List.intercalate]

/-- Line feeds for every end of line: a carriage return, alone or before a line feed, becomes a
line feed. -/
def unifyNewlines : List Char → List Char
  | [] => []
  | '\r' :: '\n' :: rest => '\n' :: unifyNewlines rest
  | c :: rest => (if c = '\r' then '\n' else c) :: unifyNewlines rest

@[simp] theorem unifyNewlines_nil : unifyNewlines [] = [] := rfl

end HeaderApi.Text
