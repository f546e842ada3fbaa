import HeaderApi.Entry.Draft

/-!
# Entries as data

An entry is written with the fields that it has; what it lacks is left out.
-/

namespace HeaderApi

/-- The spelling of a parameter. -/
def Parameter.draft : Parameter → ParameterDraft
  | .raw text => .raw text
  | .named name type default => .named name (some type) (.ofOption default)

@[simp] theorem Parameter.parameter_draft (p : Parameter) : p.draft.parameter = p := by
  cases p <;> simp [Parameter.draft, ParameterDraft.parameter]

/-- The spelling of a list of parameters. -/
def Parameter.draftList (parameters : Option (List Parameter)) : Setting (List ParameterDraft) :=
  .ofOption (parameters.map (List.map Parameter.draft))

/-- The spelling of a signature: every field that it has. -/
def Signature.draft (s : Signature) : SignatureDraft where
  name := s.name
  kind := s.kind
  doc := some s.doc
  type := .ofOption s.type
  parameters := Parameter.draftList s.parameters
  template := Parameter.draftList s.template
  immutable := .ofOption s.immutable
  constexpr := .ofOption s.constexpr
  static := .ofOption s.static
  reference := .ofOption s.reference
  value := .ofOption s.value
  sourceName := .ofOption s.sourceName
  beginLine := .ofOption s.beginLine
  declLine := .ofOption s.declLine
  endLine := .ofOption s.endLine

/-- Parameters are the ones that their stored form stands for, also where there is no list. -/
@[simp] theorem SignatureDraft.parametersOf_draftList (parameters : Option (List Parameter)) :
    SignatureDraft.parametersOf (Parameter.draftList parameters) = parameters := by
  cases parameters with
  | none => rfl
  | some ps =>
    simp only [SignatureDraft.parametersOf, Parameter.draftList, Setting.get?_ofOption,
      Option.map_some, List.map_map, Option.some.injEq]
    exact (List.map_congr_left fun p _ => Parameter.parameter_draft p).trans (List.map_id ps)

/-- Spelling a signature loses nothing. -/
@[simp] theorem Signature.signature_draft (s : Signature) : s.draft.signature = s := by
  simp [Signature.draft, SignatureDraft.signature]

mutual

/-- The spelling of an entry. -/
def Entry.draft : Entry → EntryDraft
  | ⟨signature, none⟩ => ⟨signature.draft, .unset⟩
  | ⟨signature, some members⟩ => ⟨signature.draft, .given (Slot.drafts members)⟩

/-- The spelling of a slot. -/
def Slot.draft : Slot → SlotDraft
  | .single entry => .single entry.draft
  | .overloads first more => .overloads first.draft (Entry.drafts more)

/-- The spelling of entries. -/
def Entry.drafts : List Entry → List EntryDraft
  | [] => []
  | entry :: entries => entry.draft :: Entry.drafts entries

/-- The spelling of slots. -/
def Slot.drafts : List (String × Slot) → List (String × SlotDraft)
  | [] => []
  | (key, slot) :: slots => (key, slot.draft) :: Slot.drafts slots

end

mutual

/-- Spelling an entry loses nothing. -/
theorem Entry.entry_draft : (e : Entry) → e.draft.entry = e
  | ⟨signature, none⟩ => by simp [Entry.draft, EntryDraft.entry]
  | ⟨signature, some members⟩ => by
    simp [Entry.draft, EntryDraft.entry, Slot.entries_drafts members]

/-- A slot is the one that its stored form stands for. -/
theorem Slot.slot_draft : (slot : Slot) → slot.draft.slot = slot
  | .single entry => by simp [Slot.draft, SlotDraft.slot, entry.entry_draft]
  | .overloads first more => by
    simp [Slot.draft, SlotDraft.slot, first.entry_draft, Entry.entryList_drafts more]

/-- Overloads are the ones that their stored forms stand for. -/
theorem Entry.entryList_drafts : (es : List Entry) → EntryDraft.entryList (Entry.drafts es) = es
  | [] => rfl
  | e :: es => by
    simp [Entry.drafts, EntryDraft.entryList, e.entry_draft, Entry.entryList_drafts es]

/-- The slots of a table are the ones that their stored forms stand for. -/
theorem Slot.entries_drafts :
    (slots : List (String × Slot)) → SlotDraft.entries (Slot.drafts slots) = slots
  | [] => rfl
  | (key, slot) :: slots => by
    simp [Slot.drafts, SlotDraft.entries, slot.slot_draft, Slot.entries_drafts slots]

end

/-- The entry as data. -/
def Entry.toValue (entry : Entry) : Value := entry.draft.toValue .saved

/-- A table of entries as data. -/
def Entries.toValue (entries : Entries) : Value :=
  .table (SlotDraft.toFields .saved (Slot.drafts entries))

/-- Reads an entry from data. -/
def Entry.ofValue (value : Value) : Checked Entry := EntryDraft.entry <$> EntryDraft.ofValue value

/-- Reads a table of entries from data. -/
def Entries.ofValue (value : Value) : Checked Entries :=
  SlotDraft.entries <$> SlotDraft.ofValue value

end HeaderApi
