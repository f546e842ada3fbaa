import HeaderApi.Keyed
import HeaderApi.Parameter.Basic

/-!
# Entries

An entry is one declared element of a header.  The elements of one scope are kept in a table from
names to slots; overloaded functions share a slot.
-/

namespace HeaderApi

/-- The kinds of declared elements. -/
inductive EntryKind where
  | typeAlias
  | callback
  | definition
  | enum
  | forward
  | function
  | struct
  | union
  | var
  deriving DecidableEq, Repr, Inhabited

namespace EntryKind

/-- The name of a kind. -/
def label : EntryKind → String
  | .typeAlias => "alias"
  | .callback => "callback"
  | .definition => "def"
  | .enum => "enum"
  | .forward => "forward"
  | .function => "function"
  | .struct => "struct"
  | .union => "union"
  | .var => "var"

/-- Every kind. -/
def all : List EntryKind :=
  [.typeAlias, .callback, .definition, .enum, .forward, .function, .struct, .union, .var]

/-- The kind of a name. -/
def ofLabel? (s : String) : Option EntryKind := all.find? fun kind => kind.label = s

/-- The name of a kind determines it. -/
theorem ofLabel?_label (kind : EntryKind) : ofLabel? kind.label = some kind := by
  cases kind <;> decide

end EntryKind

/-- What an entry says about itself, its members apart. -/
structure Signature where
  name : String
  kind : EntryKind
  doc : String := ""
  type : Option String := none
  parameters : Option (List Parameter) := none
  template : Option (List Parameter) := none
  immutable : Option Bool := none
  constexpr : Option Bool := none
  static : Option Bool := none
  reference : Option Int := none
  /-- The initializer of a variable or the text of a definition. -/
  value : Option String := none
  /-- The name of the entry from which this one was made. -/
  sourceName : Option String := none
  beginLine : Option Int := none
  declLine : Option Int := none
  endLine : Option Int := none
  deriving DecidableEq, Repr, Inhabited

mutual

/-- A declared element. -/
structure Entry extends Signature where
  members : Option (List (String × Slot)) := none

/-- What stands under one name: an entry, or overloads of a function. -/
inductive Slot where
  | single (entry : Entry)
  | overloads (first : Entry) (more : List Entry)

end

instance : Inhabited Entry := ⟨⟨default, none⟩⟩

instance : Inhabited Slot := ⟨.single default⟩

/-- The slots of one scope in order. -/
abbrev Entries := Keyed Slot

/-- The entries of a slot in order. -/
def Slot.toList : Slot → List Entry
  | .single entry => [entry]
  | .overloads first more => first :: more

/-- The slot of a nonempty list of overloads. -/
def Slot.ofOverloads? : List Entry → Option Slot
  | [] => none
  | first :: more => some (.overloads first more)

/-- The entries of a scope in order, overloads one after the other. -/
def Entries.toList (entries : Entries) : List Entry := entries.flatMap fun pair => pair.2.toList

/-- The key under which an entry stands.  A forward declaration stands beside the record that it
announces. -/
def Entry.key (entry : Entry) : String :=
  if entry.kind = .forward then entry.name ++ "-forward" else entry.name

/-- The entry without its line numbers. -/
def Entry.withoutLines (entry : Entry) : Entry :=
  { entry with beginLine := none, declLine := none, endLine := none }

@[simp] theorem Slot.toList_single (entry : Entry) : (Slot.single entry).toList = [entry] := rfl

@[simp] theorem Slot.toList_overloads (first : Entry) (more : List Entry) :
    (Slot.overloads first more).toList = first :: more := rfl

theorem Slot.toList_ne_nil (slot : Slot) : slot.toList ≠ [] := by
  cases slot <;> simp

@[simp] theorem Entries.toList_nil : Entries.toList [] = [] := rfl

@[simp] theorem Entries.toList_cons (key : String) (slot : Slot) (entries : Entries) :
    Entries.toList ((key, slot) :: entries) = slot.toList ++ entries.toList := rfl

end HeaderApi
