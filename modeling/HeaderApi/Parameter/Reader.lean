import HeaderApi.Parameter.Basic
import HeaderApi.Source.TopLevel
import HeaderApi.Spelling
import HeaderApi.Text.Scan

/-!
# Reading parameter lists

The text between the parentheses of a declaration is split at its top-level commas.  Each
fragment is a declaration with an optional default value; a declaration that does not end in a
name, after a blank or a mark, is kept as it stands.
-/

namespace HeaderApi.Parameter

open Text Source Spelling

/-! ## Default values -/

/-- Whether an equals sign between two characters is part of a comparison, or opens the text. -/
def isComparison (previous : Option Char) (rest : List Char) : Bool :=
  rest.head? = some '=' ||
    match previous with
    | none => true
    | some c => c = '=' || c = '!' || c = '<' || c = '>'

/-- Cuts a fragment at its first top-level assignment sign, given the character before it and the
bracket depth. -/
def cutDefault : Option Char → Int → List Char → Option (List Char × List Char)
  | _, _, [] => none
  | previous, depth, c :: rest =>
    if c = '=' && depth = 0 && !isComparison previous rest then some ([], rest)
    else
      let depth' := if isOpening c then depth + 1 else if isClosing c then depth - 1 else depth
      (cutDefault (some c) depth' rest).map fun cut => (c :: cut.1, cut.2)

/-- The declaration of a fragment and its default value, both trimmed. -/
def splitDefault (fragment : List Char) : List Char × Option (List Char) :=
  match cutDefault none 0 fragment with
  | some (declaration, value) => (trim declaration, some (trim value))
  | none => (trim fragment, none)

/-! ## Names -/

/-- A declaration taken apart. -/
structure Parts where
  type : List Char
  name : List Char
  extent : List Char
  deriving DecidableEq, Repr

/-- The name at the end of a text that is given in reverse, when a blank or a mark stands before
it. -/
def nameAtEnd (reversed : List Char) : Option (List Char × List Char) :=
  match reversed.takeWhile isWord, reversed.dropWhile isWord with
  | [], _ => none
  | _, [] => none
  | name, c :: before =>
    if isBlank c || isMark c then some ((c :: before).reverse, name.reverse) else none

/-- Looks in reversed text for the bracket that opens the extent: the last one with a name before
it.  The extent read so far is `held`. -/
def extentAtEnd (held : List Char) : List Char → Option Parts
  | [] => none
  | c :: before =>
    if c = ']' then none
    else if c = '[' then
      match nameAtEnd (trimStart before) with
      | some (type, name) => some ⟨type, name, '[' :: held⟩
      | none => extentAtEnd ('[' :: held) before
    else extentAtEnd (c :: held) before

/-- The parts of a declaration that ends in a name, or in a name and one extent. -/
def parts? (declaration : List Char) : Option Parts :=
  match declaration.reverse with
  | ']' :: before => extentAtEnd [']'] before
  | reversed => (nameAtEnd reversed).map fun cut => ⟨cut.1, cut.2, []⟩

/-! ## Lists -/

/-- The parameter of one fragment; a fragment without a declaration gives none. -/
def ofFragment (fragment : List Char) : Option Parameter :=
  let (declaration, default) := splitDefault fragment
  if declaration = [] then none
  else
    match parts? declaration with
    | some parts =>
      some (.named (String.ofList parts.name) (String.ofList (normalize parts.type ++ parts.extent))
        (default.map String.ofList))
    | none => some (.raw (String.ofList (trim fragment)))

/-- The parameters of a parameter list. -/
def parseList (text : List Char) : List Parameter :=
  let text := collapse text
  if text = [] || text = "void".toList then []
  else (splitTopLevel ',' text).filterMap ofFragment

/-- The parameters of a function-like definition: bare names. -/
def bareNames (text : List Char) : List Parameter :=
  (pieces ',' text).filterMap fun piece =>
    let name := trim piece
    if name = [] then none else some (.named (String.ofList name) "" none)

@[simp] theorem parseList_nil : parseList [] = [] := rfl

end HeaderApi.Parameter
