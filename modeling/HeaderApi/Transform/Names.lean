import HeaderApi.Rules.Basic
import HeaderApi.Text.Scan

/-!
# Names in the target

A name loses the first of the configured openings that it has, and then goes through the rename
rules.  A header file takes the suffix of the target.
-/

namespace HeaderApi.Rules

open Text

/-- A name without the first opening that it has and that is not all of it. -/
def stripOpening : List String → List Char → List Char
  | [], name => name
  | opening :: others, name =>
    match after? opening.toList name with
    | some (c :: rest) => c :: rest
    | _ => stripOpening others name

@[simp] theorem stripOpening_nil (name : List Char) : stripOpening [] name = name := rfl

variable [CharacterNames]

/-- The name that an entry takes by default. -/
def defaultName (rules : Rules) (name : String) : Except PatternError String :=
  (Replacement.applyAll (rules.renameRules.getD [])
    (stripOpening (rules.prefixes.getD []) name.toList)).map String.ofList

/-- The name that a file takes by default. -/
def targetFileName (rules : Rules) (name : String) : Except PatternError String :=
  (rules.defaultName name).map fun name =>
    if endsWith ".h".toList name.toList then name ++ "pp" else name

end HeaderApi.Rules
