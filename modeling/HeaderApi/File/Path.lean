import HeaderApi.Text.Scan

/-!
# Paths

A path is a list of parts, counted from the root or from the current folder.  Empty parts and
single dots say nothing and are dropped.
-/

namespace HeaderApi

open Text

/-- A path to a file or folder. -/
structure Path where
  isAbsolute : Bool := false
  parts : List String := []
  deriving DecidableEq, Repr, Inhabited

namespace Path

/-- Whether a part says anything. -/
def isPart (part : String) : Bool := part ≠ "" && part ≠ "."

/-- Reads a path. -/
def ofText (text : String) : Path where
  isAbsolute := startsWith ['/'] text.toList
  parts := ((pieces '/' text.toList).map String.ofList).filter isPart

/-- The path that a second path leads to from the first. -/
def join (base path : Path) : Path :=
  if path.isAbsolute then path else { base with parts := base.parts ++ path.parts }

/-- The text of a path. -/
def toText (p : Path) : String :=
  let body := String.intercalate "/" p.parts
  if p.isAbsolute then "/" ++ body
  else if p.parts = [] then "."
  else body

/-- The last part of a path. -/
def name (p : Path) : String := p.parts.getLast?.getD ""

/-- The last part of a path from its last dot on.  A dot at either end of the part does not
count. -/
def suffix (p : Path) : String :=
  match cutAtLast '.' p.name.toList with
  | some (_ :: _, c :: rest) => String.ofList ('.' :: c :: rest)
  | _ => ""

/-- The folder around a path. -/
def parent (p : Path) : Path := { p with parts := p.parts.dropLast }

end Path

end HeaderApi
