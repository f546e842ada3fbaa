import HeaderApi.Entry.Printer
import HeaderApi.Header.Basic
import HeaderApi.Text.Scan
import HeaderApi.Text.Upper

/-!
# Printing headers

A header is printed inside a guard: the includes, and then every entry inside the namespace.
-/

namespace HeaderApi

open Text

/-- How headers are printed. -/
structure HeaderOptions where
  namespaceName : String := "SDL"
  guardStart : String := "SDL3PP_"
  guardEnd : String := "_H_"
  deriving DecidableEq, Repr, Inhabited

/-- Texts in the order of their code points. -/
def sortTexts (texts : List String) : List String := texts.mergeSort fun a b => decide (a ≤ b)

/-- The line that opens a namespace. -/
def namespaceOpen (name : String) : Line := "namespace ".toList ++ name.toList ++ " \x7b".toList

/-- The line that closes a namespace. -/
def namespaceClose (name : String) : Line := "\x7d // namespace ".toList ++ name.toList

/-- A system include. -/
def systemInclude (name : String) : Line := "#include <".toList ++ name.toList ++ ['>']

/-- A quoted include. -/
def quotedInclude (name : String) : Line := "#include \"".toList ++ name.toList ++ ['"']

namespace Header

/-- The name of a file without its last suffix. -/
def stem (name : List Char) : List Char :=
  match cutAtLast '.' name with
  | some (before, _) => before
  | none => name

/-- The guard of a file: its stem in upper case, with every character that is not part of a word
replaced. -/
def guard (options : HeaderOptions) (name : String) : Line :=
  options.guardStart.toList ++
    upper ((stem name.toList).map fun c => if isWord c then c else '_') ++
    options.guardEnd.toList

/-- Lines followed by an empty one, unless there are none. -/
def block (ls : List Line) : List Line := if ls = [] then [] else ls ++ [[]]

/-- The lines inside the namespace. -/
def contentLines (h : Header) : List Line :=
  [] :: block (docLines [] h.doc) ++ h.entries.toList.flatMap fun entry => entry.lines [] ++ [[]]

/-- The includes of a header in order: system includes, then quoted ones. -/
def includeLines (h : Header) : List Line :=
  (sortTexts (h.includes.getD [])).map systemInclude ++
    (sortTexts (h.localIncludes.getD [])).map quotedInclude

/-- The lines of a header. -/
def toLines (options : HeaderOptions) (h : Header) : List Line :=
  let guard := guard options h.name
  ["#ifndef ".toList ++ guard, "#define ".toList ++ guard, []] ++ block h.includeLines ++
    [namespaceOpen options.namespaceName] ++ h.contentLines ++
    [namespaceClose options.namespaceName, [], "#endif /* ".toList ++ guard ++ " */".toList]

end Header

/-- The lines of every header of an interface, under its name. -/
def Api.toLines (options : HeaderOptions) (api : Api) : Keyed (List Line) :=
  api.files.map fun (name, header) => (name, header.toLines options)

end HeaderApi
