import HeaderApi.Amalgam.Collection
import HeaderApi.Amalgam.Order

/-!
# Printing an amalgamation

One guard around the system includes, the unconditional parts inside one namespace, and the
conditional parts behind it.
-/

namespace HeaderApi

open Text

namespace Part

/-- Lines as one trimmed block. -/
def block (lines : List Line) : List Char := trim (joinLines lines)

/-- The lines of the directive at the front, with the lines that continue it, and the rest. -/
def splitDirective : List Line → List Line × List Line
  | [] => ([], [])
  | line :: rest =>
    if endsWith ['\\'] (trimEnd line) && rest ≠ [] then
      let (directive, tail) := splitDirective rest
      (line :: directive, tail)
    else ([line], rest)

/-- The content of a conditional part, with its system includes behind its condition. -/
def conditionalContent (part : Part) (content : List Line) : List Line :=
  let (directive, rest) := splitDirective content
  directive ++ part.includes.map systemInclude ++ rest

/-- The content of a part that has any. -/
def content? (part : Part) : Option (List Line) := part.content.filter (· ≠ [])

/-- The blocks of the unconditional parts. -/
def plainBlocks (parts : List Part) : List (List Char) :=
  (parts.filter (!·.conditional)).flatMap fun part =>
    match part.content? with
    | some content => [block content, []]
    | none => []

/-- The blocks of the conditional parts. -/
def conditionalBlocks (parts : List Part) : List (List Char) :=
  (parts.filter Part.conditional).flatMap fun part =>
    match part.content? with
    | some content => [block (part.conditionalContent content), []]
    | none => []

end Part

namespace Collection

/-- The pieces of an amalgamation of ordered parts, one or more lines each. -/
def pieces (options : AmalgamOptions) (includes : List String) (parts : List Part) :
    List (List Char) :=
  ["// ".toList ++ options.title.toList, "#ifndef ".toList ++ options.guard.toList,
      "#define ".toList ++ options.guard.toList, []] ++
    Header.block (includes.map systemInclude) ++
    [namespaceOpen options.namespaceName, []] ++ Part.plainBlocks parts ++
    [namespaceClose options.namespaceName, []] ++ Part.conditionalBlocks parts ++
    ["#endif // ".toList ++ options.guard.toList]

/-- The text of an amalgamation. -/
def print (options : AmalgamOptions) (c : Collection) : Except AmalgamError (List Char) := do
  let parts ← Part.order c.parts
  return joinLines (pieces options c.includes parts) ++ ['\n']

end Collection

end HeaderApi
