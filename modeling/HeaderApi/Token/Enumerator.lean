import HeaderApi.Text.Blank
import HeaderApi.Text.Scan
import HeaderApi.Text.Word
import HeaderApi.Token.Basic

/-!
# Enumerators

A line of an enum body: a name, possibly a value, a comma and a doc comment.
-/

namespace HeaderApi.Enumerator

open Text

/-- The doc comment that makes up the end of an enumerator line. -/
def docAtEnd? (cs : List Char) : Option (List Char) :=
  match after? "/**<".toList cs with
  | some rest =>
    (after? "/*".toList rest.reverse).bind fun text =>
      if text.contains '\n' then none else some text.reverse
  | none =>
    (after? "///<".toList cs).bind fun text => if text.contains '\n' then none else some text

/-- The end of an enumerator line: blanks, a comma, and a doc comment, all of which may be
missing. -/
def ending? (cs : List Char) : Option (Option (List Char)) :=
  let text := trimStart cs
  let text := trimStart ((after? [','] text).getD text)
  if text = [] then some none else (docAtEnd? text).map some

/-- The value behind an equals sign and what follows it.  A value holds no comma and no slash. -/
def splitValue (cs : List Char) : List Char × List Char :=
  let isValue c := c ≠ ',' && c ≠ '/'
  (trim (cs.takeWhile isValue), cs.dropWhile isValue)

/-- The enumerator on a line. -/
def read? (line : Line) : Option VariableHead := do
  let name := line.takeWhile isWord
  let rest := trimStart (line.dropWhile isWord)
  let (value, rest) := match rest with
    | '=' :: text => splitValue text
    | text => ([], text)
  let doc ← ending? rest
  if name = [] then none
  else
    return {
      name := String.ofList name
      type := ""
      initializer := if value = [] then none else some (String.ofList value)
      doc := doc.map fun text => String.ofList (trim text)
      static := false
      constexpr := false }

end HeaderApi.Enumerator
