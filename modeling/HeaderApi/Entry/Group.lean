import HeaderApi.Entry.Basic

/-!
# Grouping entries

The entries of a scope are put into its table one by one.  Functions of one name are overloads; of
other entries with one key the first documented one is kept.  The members of a record without a
name belong to the scope around it.
-/

namespace HeaderApi

mutual

/-- The entries that stand in a scope for a declared one: the entry itself, or the members of a
record without a name. -/
def Entry.hoisted : Entry → List Entry
  | ⟨signature, none⟩ => [⟨signature, none⟩]
  | ⟨signature, some members⟩ =>
    if signature.name = "" then hoistedMembers members else [⟨signature, some members⟩]

/-- The entries that stand for a slot. -/
def Slot.hoisted : Slot → List Entry
  | .single entry => entry.hoisted
  | .overloads first more => first.hoisted ++ hoistedList more

/-- The entries that stand for a list. -/
def hoistedList : List Entry → List Entry
  | [] => []
  | entry :: entries => entry.hoisted ++ hoistedList entries

/-- The entries that stand for the members of a record. -/
def hoistedMembers : List (String × Slot) → List Entry
  | [] => []
  | (_, slot) :: members => slot.hoisted ++ hoistedMembers members

end

/-- What becomes of a slot when another entry comes under its key; `none` when the entry is a
duplicate. -/
def Slot.add? (slot : Slot) (entry : Entry) : Option Slot :=
  match slot with
  | .overloads first more =>
    if entry.kind = .function then some (.overloads first (more ++ [entry])) else none
  | .single current =>
    if entry.kind = .function && current.kind = .function then some (.overloads current [entry])
    else if current.doc = "" && entry.doc ≠ "" then some (.single entry)
    else none

/-- Puts an entry into a table; `none` when it is a duplicate. -/
def Entries.add? (entries : Entries) (entry : Entry) : Option Entries :=
  match Keyed.find? entries entry.key with
  | none => some (Keyed.insert entries entry.key (.single entry))
  | some slot => (slot.add? entry).map (Keyed.insert entries entry.key)

/-- Puts entries into a table in turn; also the duplicates that were left out. -/
def Entries.addAll (entries : Entries) : List Entry → Entries × List Entry
  | [] => (entries, [])
  | entry :: rest =>
    match entries.add? entry with
    | some entries => Entries.addAll entries rest
    | none =>
      let (result, duplicates) := Entries.addAll entries rest
      (result, entry :: duplicates)

end HeaderApi
