/-
# Code without comments and literals

The characters of a source line that are code: comments and string and character literals are
left out.  A block comment may stay open at the end of a line, a literal never does.
-/

namespace HeaderApi.Source

/-- Where the scan of a source line stands. -/
inductive Region where
  /-- Plain code. -/
  | code
  /-- Inside a block comment. -/
  | comment
  /-- Inside a literal that the given quote closes. -/
  | literal (quote : Char)
  deriving DecidableEq, Repr, Inhabited

/-- The quotes of string and character literals. -/
def isQuote (c : Char) : Bool := c = '"' || c = '\''

/-- The code that follows in a region, and whether a block comment is open at the end. -/
def stripFrom : Region → List Char → List Char × Bool
  | .comment, [] => ([], true)
  | _, [] => ([], false)
  | .comment, '*' :: '/' :: rest => stripFrom .code rest
  | .comment, _ :: rest => stripFrom .comment rest
  | .literal quote, '\\' :: _ :: rest => stripFrom (.literal quote) rest
  | .literal quote, c :: rest => stripFrom (if c = quote then .code else .literal quote) rest
  | .code, '/' :: '/' :: _ => ([], false)
  | .code, '/' :: '*' :: rest => stripFrom .comment rest
  | .code, c :: rest =>
    if isQuote c then stripFrom (.literal c) rest
    else
      let tail := stripFrom .code rest
      (c :: tail.1, tail.2)

/-- The code of a line that begins inside or outside a block comment, and whether a block comment
is open after it. -/
def strip (line : List Char) (inComment : Bool) : List Char × Bool :=
  stripFrom (if inComment then .comment else .code) line

/-- The code of a line that begins outside comments. -/
def code (line : List Char) : List Char := (strip line false).1

/-- Strips lines in turn, passing on whether a block comment is open. -/
def stripLines : List (List Char) → Bool → List (List Char × Bool)
  | [], _ => []
  | line :: rest, inComment =>
    let result := strip line inComment
    result :: stripLines rest result.2

@[simp] theorem stripFrom_nil_code : stripFrom .code [] = ([], false) := by simp [stripFrom]

@[simp] theorem stripFrom_nil_comment : stripFrom .comment [] = ([], true) := by simp [stripFrom]

@[simp] theorem stripFrom_nil_literal (quote : Char) :
    stripFrom (.literal quote) [] = ([], false) := by simp [stripFrom]

end HeaderApi.Source
