import HeaderApi.Text.Blank
import HeaderApi.Text.Word

/-!
# Spelling of types

Types are compared by their spelling, so each is brought into one form: single spaces, exactly
one space between a word and a pointer or reference mark, and none between two marks.
-/

namespace HeaderApi.Spelling

open Text

/-- The pointer and reference marks. -/
def isMark (c : Char) : Bool := c = '*' || c = '&'

/-- Puts a space between a word and a mark that directly follows it. -/
def spaceMarks : List Char → List Char
  | [] => []
  | [c] => [c]
  | c :: d :: rest =>
    if isWord c && isMark d then c :: ' ' :: spaceMarks (d :: rest)
    else c :: spaceMarks (d :: rest)

/-- Drops a space between two marks. -/
def joinMarks : List Char → List Char
  | c :: ' ' :: d :: rest =>
    if isMark c && isMark d then c :: joinMarks (d :: rest)
    else c :: joinMarks (' ' :: d :: rest)
  | c :: rest => c :: joinMarks rest
  | [] => []

/-- The one spelling of a type. -/
def normalize (cs : List Char) : List Char := joinMarks (spaceMarks (collapse cs))

@[simp] theorem spaceMarks_nil : spaceMarks [] = [] := rfl

@[simp] theorem joinMarks_nil : joinMarks [] = [] := rfl

@[simp] theorem normalize_nil : normalize [] = [] := rfl

end HeaderApi.Spelling
