import HeaderApi.Entry.Basic
import HeaderApi.Parameter.Printer
import HeaderApi.Text.Lines

/-!
# Printing entries

The lines of source text that declare an entry, with its doc comment and template in front.
-/

namespace HeaderApi

open Text Declarator

/-- The lines of a doc comment; an empty doc has none. -/
def docLines (indent : Line) (doc : String) : List Line :=
  if doc = "" then []
  else
    (indent ++ "/**".toList) ::
      (lines doc.toList).map (fun line => trimEnd (indent ++ " * ".toList ++ line)) ++
      [indent ++ " */".toList]

namespace Signature

/-- A word in front of a text when a flag is set. -/
def flagWord (content : Option Bool) (word : String) (text : Line) : Line :=
  if content = some true then word.toList ++ ' ' :: text else text

/-- The text of an optional type. -/
def typeText (s : Signature) : Line := (s.type.getD "").toList

/-- The list of parameters as text. -/
def parameterText (content : Option (List Parameter)) : Line :=
  Parameter.printList (content.getD [])

/-- The declaration of a function. -/
def functionLine (s : Signature) : Line :=
  let text := declare s.typeText (s.name.toList ++ '(' :: parameterText s.parameters ++ [')'])
  let text := flagWord s.static "static" (flagWord s.constexpr "constexpr" text)
  let text := if s.immutable = some true then text ++ " const".toList else text
  let marks := match s.reference with
    | none => []
    | some n => if n = 0 then [] else ' ' :: List.replicate n.toNat '&'
  text ++ marks ++ [';']

/-- A value behind an equals sign. -/
def valueText (s : Signature) : Line :=
  match s.value with
  | some value => " = ".toList ++ value.toList
  | none => []

/-- The declaration of a variable. -/
def variableLine (s : Signature) : Line :=
  let text := declare s.typeText s.name.toList
  flagWord s.static "static" (flagWord s.constexpr "constexpr" text) ++ s.valueText ++ [';']

/-- The definition of a name. -/
def definitionLine (s : Signature) : Line :=
  let parameters := match s.parameters with
    | some ps => '(' :: Parameter.printList ps ++ [')']
    | none => []
  let value := match s.value with
    | some value => if value = "" then [] else ' ' :: value.toList
    | none => []
  "#define ".toList ++ s.name.toList ++ parameters ++ value

/-- The declaration of an alias.  A name for a type of the same name outside is qualified. -/
def aliasLine (s : Signature) : Line :=
  match s.type with
  | none => "using ".toList ++ s.name.toList ++ [';']
  | some type =>
    let target := if type = s.name then "::".toList ++ type.toList else type.toList
    "using ".toList ++ s.name.toList ++ " = ".toList ++ target ++ [';']

/-- The declaration of a function pointer type. -/
def callbackLine (s : Signature) : Line :=
  let type := if s.typeText = [] then "void".toList else s.typeText
  "using ".toList ++ s.name.toList ++ " = ".toList ++ type ++ "(*)(".toList ++
    parameterText s.parameters ++ ");".toList

/-- The first line of a record. -/
def recordLine (s : Signature) : Line :=
  s.kind.label.toList ++ ' ' :: s.name.toList ++
    if s.typeText = [] then [] else " : ".toList ++ s.typeText

/-- The fragments at the beginning of a record's body. -/
def fragmentLines (indent : Line) (s : Signature) : List Line :=
  (s.parameters.getD []).map fun p => indent ++ p.print

/-- The doc comment and the template in front of a declaration. -/
def frontLines (indent : Line) (s : Signature) : List Line :=
  docLines indent s.doc ++
    match s.template with
    | some ps => [indent ++ "template<".toList ++ Parameter.printList ps ++ ['>']]
    | none => []

/-- The lines of an enumerator. -/
def enumeratorLines (indent : Line) (s : Signature) : List Line :=
  docLines indent s.doc ++ [indent ++ s.name.toList ++ s.valueText ++ [',']]

/-- A record around the lines of its members. -/
def recordLines (indent : Line) (s : Signature) (members : List Line) : List Line :=
  [indent ++ s.recordLine, indent ++ ['\x7b']] ++ s.fragmentLines (indent ++ [' ', ' ']) ++
    members ++ [indent ++ "\x7d;".toList]

/-- The lines of a declaration behind its doc comment and template, given the lines of its
members. -/
def declarationLines (indent : Line) (s : Signature) (members : List Line) : List Line :=
  match s.kind with
  | .typeAlias => [indent ++ s.aliasLine]
  | .callback => [indent ++ s.callbackLine]
  | .function => [indent ++ s.functionLine]
  | .var => [indent ++ s.variableLine]
  | .definition => [s.definitionLine]
  | .forward =>
    [indent ++ "// Forward decl".toList, indent ++ "struct ".toList ++ s.name.toList ++ [';']]
  | .struct | .union | .enum => s.recordLines indent members

end Signature

/-- The lines of the enumerators of an enum. -/
def Entries.enumeratorLines (indent : Line) (entries : Entries) : List Line :=
  entries.toList.flatMap fun entry => entry.enumeratorLines indent

mutual

/-- The lines of an entry. -/
def Entry.lines (indent : Line) : Entry → List Line
  | ⟨signature, none⟩ => signature.frontLines indent ++ signature.declarationLines indent []
  | ⟨signature, some members⟩ =>
    let inner := indent ++ [' ', ' ']
    signature.frontLines indent ++ signature.declarationLines indent
      (if signature.kind = .enum then Entries.enumeratorLines inner members
        else Slot.lines inner members)

/-- The lines of the members of a record. -/
def Slot.lines (indent : Line) : List (String × Slot) → List Line
  | [] => []
  | (_, .single entry) :: rest => entry.lines indent ++ Slot.lines indent rest
  | (_, .overloads first more) :: rest =>
    first.lines indent ++ Entry.linesList indent more ++ Slot.lines indent rest

/-- The lines of entries one after the other. -/
def Entry.linesList (indent : Line) : List Entry → List Line
  | [] => []
  | entry :: rest => entry.lines indent ++ Entry.linesList indent rest

end

end HeaderApi
