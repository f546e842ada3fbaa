import HeaderApi.Declarator
import HeaderApi.Parameter.Basic

/-!
# Printing parameter lists
-/

namespace HeaderApi.Parameter

open Declarator

/-- The source text of one parameter. -/
def print : Parameter → List Char
  | .raw text => text.toList
  | .named name type none => declare type.toList name.toList
  | .named name type (some value) => declare type.toList name.toList ++ " = ".toList ++ value.toList

/-- The source text of a parameter list. -/
def printList (parameters : List Parameter) : List Char :=
  ", ".toList.intercalate (parameters.map print)

@[simp] theorem printList_nil : printList [] = [] := rfl

end HeaderApi.Parameter
