import HeaderApi.Spelling

/-!
# Declarators

A declaration writes a type in front of a name, except that array extents follow the name and
pointer and reference marks touch it.
-/

namespace HeaderApi.Declarator

open Text

/-- Reads `[…][…]` up to the end of the text, or up to a line feed that ends it; the flag tells
whether a bracket is open. -/
def readGroups : Bool → List Char → Option (List Char)
  | false, [] => some []
  | true, [] => none
  | false, '[' :: rest => (readGroups true rest).map ('[' :: ·)
  | false, c :: rest => if c = '\n' && rest = [] then some [] else none
  | true, c :: rest => (readGroups (c ≠ ']') rest).map (c :: ·)

/-- The array extents that make up a whole text. -/
def readExtents? : List Char → Option (List Char)
  | '[' :: rest => (readGroups true rest).map ('[' :: ·)
  | _ => none

/-- A type without its array extents, and the extents.  The extents are the longest possible and
the blanks before them are dropped; the bare type must lie on one line. -/
def splitExtents : List Char → Option (List Char × List Char)
  | [] => none
  | c :: rest =>
    match readExtents? (trimStart (c :: rest)) with
    | some extents => some ([], extents)
    | none => if c = '\n' then none else (splitExtents rest).map fun cut => (c :: cut.1, cut.2)

/-- A name declared with a type that has no array extents. -/
def attach (type name : List Char) : List Char :=
  match type.getLast? with
  | none => name
  | some c => if Spelling.isMark c then type ++ name else type ++ ' ' :: name

/-- The declaration of a name with a type. -/
def declare (type name : List Char) : List Char :=
  match splitExtents type with
  | some (bare, extents) => attach bare name ++ extents
  | none => attach type name

@[simp] theorem attach_nil (name : List Char) : attach [] name = name := rfl

@[simp] theorem declare_nil (name : List Char) : declare [] name = name := rfl

end HeaderApi.Declarator
