import HeaderApi.Header.Record
import HeaderApi.Proofs.Tables

/-!
# Records that are stored and read again

An entry is stored with the fields that it has.  Reading the record gives the entry back, with all
its members in their order; so an interface that is stored and read again is the same interface.
-/

namespace HeaderApi

/-! ## Checks that undo a writer -/

namespace Value

variable {α : Type}

/-- A check that gives back what a writer wrote, which is never null. -/
structure Reads (check : Value → Checked α) (write : α → Value) : Prop where
  valid : ∀ a, check (write a) = .valid a
  ne_null : ∀ a, write a ≠ .null

theorem reads_text : Reads checkText .text := ⟨fun _ => rfl, fun _ => nofun⟩

theorem reads_bool : Reads checkBool .bool := ⟨fun _ => rfl, fun _ => nofun⟩

theorem reads_int : Reads checkInt .int := ⟨fun _ => rfl, fun _ => nofun⟩

variable {check : Value → Checked α} {write : α → Value}

/-- A list of values is read as it was written when its items are. -/
theorem Reads.list (h : Reads check write) :
    Reads (checkList check) fun items => .list (items.map write) := by
  refine ⟨fun items => ?_, fun _ => nofun⟩
  have hitems : Checked.list check (items.map write) = .valid items := by
    induction items with
    | nil => rfl
    | cons a items ih =>
      rw [List.map_cons, Checked.list, h.valid, ih]
      rfl
  exact hitems

/-- A table of values is read as it was written when its values are. -/
theorem Reads.table (h : Reads check write) :
    Reads (checkTable check) fun table => .table (table.map fun (key, a) => (key, write a)) := by
  refine ⟨fun table => ?_, fun _ => nofun⟩
  have hpairs : Checked.list (fun pair => (pair.1, ·) <$> check pair.2)
      (table.map fun (key, a) => (key, write a)) = .valid table := by
    induction table with
    | nil => rfl
    | cons pair table ih =>
      rw [List.map_cons, Checked.list, h.valid, ih]
      rfl
  exact hpairs

theorem reads_texts : Reads checkTexts texts := reads_text.list

end Value

/-! ## Fields of a stored record -/

namespace Fields

variable {α : Type} {fields : List Written} {name : String}

/-- The fields that are set, with their values. -/
def stored (fields : List Written) : Keyed Value :=
  fields.filterMap fun field => field.value.map (field.name, ·)

/-- A record that is saved holds the fields that have a value. -/
theorem table_saved (fields : List Written) : table .saved fields = .table (stored fields) := by
  unfold table stored
  congr 2
  funext field
  cases field.value with
  | none => rfl
  | some value => rfl

/-- A field is found by its name among those that have a value. -/
theorem find?_stored_cons (field : Written) (fields : List Written) (name : String) :
    Keyed.find? (stored (field :: fields)) name =
      if field.name = name then field.value.or (Keyed.find? (stored fields) name)
      else Keyed.find? (stored fields) name := by
  unfold stored
  rw [List.filterMap_cons]
  cases field.value with
  | none => simp
  | some value => rfl

/-- No field is found under a name that none has. -/
theorem find?_stored_of_not_mem (h : name ∉ fields.map Written.name) :
    Keyed.find? (stored fields) name = none := by
  induction fields with
  | nil => rfl
  | cons field fields ih =>
    rw [List.map_cons, List.mem_cons, not_or] at h
    rw [find?_stored_cons, if_neg (Ne.symm h.1), ih h.2]

/-- Of fields with different names each is found under its own. -/
theorem find?_stored (hnames : (fields.map Written.name).Nodup) {field : Written}
    (h : field ∈ fields) : Keyed.find? (stored fields) field.name = field.value := by
  induction fields with
  | nil => cases h
  | cons first fields ih =>
    obtain ⟨hfirst, hnames⟩ := List.nodup_cons.1 hnames
    rw [find?_stored_cons]
    rcases List.mem_cons.1 h with rfl | h
    · rw [if_pos rfl, find?_stored_of_not_mem hfirst, Option.or_none]
    · have hne : first.name ≠ field.name := by
        intro heq
        exact hfirst (heq ▸ List.mem_map_of_mem h)
      rw [if_neg hne, ih hnames h]

@[simp] theorem name_always (name : String) (value : Value) :
    (Written.always name value).name = name := rfl

@[simp] theorem name_defaulted (write : α → Value) (name : String) (content : Option α)
    (default : Value) : (Written.defaulted write name content default).name = name := rfl

@[simp] theorem name_nullable (write : α → Value) (name : String) (content : Setting α) :
    (Written.nullable write name content).name = name := by
  cases content <;> rfl

/-- A field can be found under other names, too, when no field has them. -/
theorem find?_stored_aliases {names : List String} (hnames : (fields.map Written.name).Nodup)
    {field : Written} (h : field ∈ fields)
    (haliases : ∀ other ∈ names, other ∉ fields.map Written.name) :
    find? (stored fields) (field.name :: names) = field.value := by
  have hnone : names.findSome? (fun name => Keyed.find? (stored fields) name) = none :=
    List.findSome?_eq_none_iff.2 fun other hother => find?_stored_of_not_mem (haliases other hother)
  rw [find?, List.findSome?_cons, find?_stored hnames h, hnone]
  cases field.value with
  | none => rfl
  | some value => rfl

section Reading

variable {check : Value → Checked α} {write : α → Value} {names : List String}

/-- A field that is always written is read again. -/
theorem required_stored (hreads : Value.Reads check write)
    (hnames : (fields.map Written.name).Nodup) (name : String) (a : α)
    (h : Written.always name (write a) ∈ fields) :
    required check (stored fields) [name] = .valid a := by
  have hfind := find?_stored_aliases hnames h (List.forall_mem_nil _)
  rw [name_always] at hfind
  rw [required, hfind]
  exact hreads.valid a

/-- A field that is written when it is set is read as it was. -/
theorem optional_stored (hreads : Value.Reads check write)
    (hnames : (fields.map Written.name).Nodup) (name : String) (content : Option α)
    (default : Value) (haliases : ∀ other ∈ names, other ∉ fields.map Written.name)
    (h : Written.defaulted write name content default ∈ fields) :
    optional check (stored fields) (name :: names) = .valid content := by
  have hfind := find?_stored_aliases hnames h haliases
  rw [name_defaulted] at hfind
  rw [optional, hfind]
  cases content with
  | none => rfl
  | some a =>
    dsimp only [Written.defaulted, Option.map_some]
    rw [hreads.valid a]
    rfl

/-- A value that is no null is read as the content of a field. -/
theorem setting_of_find? (hreads : Value.Reads check write) {fields : Keyed Value}
    {names : List String} {a : α} (h : find? fields names = some (write a)) :
    setting check fields names = .valid (.given a) := by
  rw [setting, h]
  split
  · rename_i heq
    exact absurd (Option.some.inj heq) (hreads.ne_null a)
  · rename_i value _ heq
    rw [← Option.some.inj heq, hreads.valid a]
    rfl
  · rename_i heq
    cases heq

/-- A field that may be null is read as it was. -/
theorem setting_stored (hreads : Value.Reads check write)
    (hnames : (fields.map Written.name).Nodup) (name : String) (content : Setting α)
    (haliases : ∀ other ∈ names, other ∉ fields.map Written.name)
    (h : Written.nullable write name content ∈ fields) :
    setting check (stored fields) (name :: names) = .valid content := by
  have hfind := find?_stored_aliases hnames h haliases
  rw [name_nullable] at hfind
  cases content with
  | unset =>
    rw [setting, hfind]
    rfl
  | null =>
    rw [setting, hfind]
    rfl
  | given a => exact setting_of_find? hreads hfind

end Reading

end Fields

/-! ## Parameters and signatures -/

namespace ParameterDraft

/-- The fields of a parameter with a name. -/
def allFields (name : String) (type : Option String) (default : Setting String) :
    List Fields.Written :=
  [.always "name" (.text name), .defaulted .text "type" type (.text ""),
    .nullable .text "default" default]

/-- A named parameter is read as it was written. -/
theorem ofValue_named (name : String) (type : Option String) (default : Setting String) :
    ofValue ((named name type default).toValue .saved) = .valid (named name type default) := by
  have hnames : ((allFields name type default).map Fields.Written.name).Nodup := by
    simp [allFields]
  have hvalue : (named name type default).toValue .saved =
      .table (Fields.stored (allFields name type default)) := Fields.table_saved _
  rw [hvalue]
  change named <$> Fields.required Value.checkText _ ["name"] <*>
    Fields.optional Value.checkText _ ["type"] <*>
    Fields.setting Value.checkText _ ["default"] = _
  rw [Fields.required_stored Value.reads_text hnames "name" name (by simp [allFields]),
    Fields.optional_stored Value.reads_text hnames "type" type (.text "") (List.forall_mem_nil _)
      (by simp [allFields]),
    Fields.setting_stored Value.reads_text hnames "default" default (List.forall_mem_nil _)
      (by simp [allFields])]
  rfl

/-- Parameters are read as they were written. -/
theorem reads : Value.Reads ofValue (toValue .saved) := by
  refine ⟨fun d => ?_, fun d => ?_⟩
  · cases d with
    | raw text => rfl
    | named name type default => exact ofValue_named name type default
  · cases d with
    | raw text => exact nofun
    | named name type default => exact nofun

end ParameterDraft

namespace SignatureDraft

/-- A kind is read by its label. -/
theorem reads_kind : Value.Reads checkKind fun kind => .text kind.label := by
  refine ⟨fun kind => ?_, fun _ => nofun⟩
  show Checked.ofOption (EntryKind.ofLabel? kind.label) = .valid kind
  rw [EntryKind.ofLabel?_label]
  rfl

theorem reads_parameters : Value.Reads checkParameters (parametersValue .saved) :=
  ParameterDraft.reads.list

/-- The fields of an entry, its members among them. -/
def allFields (d : SignatureDraft) (members : Option Value) : List Fields.Written :=
  d.fieldsBefore .saved ++ ⟨"entries", members, .null⟩ :: d.fieldsAfter

theorem names_allFields (d : SignatureDraft) (members : Option Value) :
    (d.allFields members).map Fields.Written.name =
      ["name", "kind", "doc", "type", "parameters", "template", "entries", "immutable",
        "constexpr", "static", "reference", "value", "sourceName", "begin", "decl", "end"] := by
  simp [allFields, fieldsBefore, fieldsAfter]

/-- No two fields of an entry have one name. -/
theorem nodup_allFields (d : SignatureDraft) (members : Option Value) :
    ((d.allFields members).map Fields.Written.name).Nodup := by
  rw [names_allFields]
  decide

/-- The members are one of the fields of an entry. -/
theorem members_mem_allFields (d : SignatureDraft) (members : Option Value) :
    ⟨"entries", members, .null⟩ ∈ d.allFields members := by
  unfold allFields
  exact List.mem_append_right _ List.mem_cons_self

/-- A stored signature is read as it was. -/
theorem ofFields_stored (d : SignatureDraft) (members : Option Value) :
    ofFields (Fields.stored (d.allFields members)) = .valid d := by
  have hnames := d.nodup_allFields members
  have hsource : ∀ other ∈ ["source_name"],
      other ∉ (d.allFields members).map Fields.Written.name := by
    rw [names_allFields]
    decide
  have hnone := List.forall_mem_nil
    fun other => other ∉ (d.allFields members).map Fields.Written.name
  -- every field is one of the list
  have hbefore : ∀ field ∈ d.fieldsBefore .saved, field ∈ d.allFields members :=
    fun _ => List.mem_append_left _
  have hafter : ∀ field ∈ d.fieldsAfter, field ∈ d.allFields members :=
    fun _ h => List.mem_append_right _ (List.mem_cons_of_mem _ h)
  rw [ofFields,
    Fields.required_stored Value.reads_text hnames "name" d.name
      (hbefore _ (by simp [fieldsBefore])),
    Fields.required_stored reads_kind hnames "kind" d.kind (hbefore _ (by simp [fieldsBefore])),
    Fields.optional_stored Value.reads_text hnames "doc" d.doc (.text "") hnone
      (hbefore _ (by simp [fieldsBefore])),
    Fields.setting_stored Value.reads_text hnames "type" d.type hnone
      (hbefore _ (by simp [fieldsBefore])),
    Fields.setting_stored reads_parameters hnames "parameters" d.parameters hnone
      (hbefore _ (by simp [fieldsBefore])),
    Fields.setting_stored reads_parameters hnames "template" d.template hnone
      (hbefore _ (by simp [fieldsBefore])),
    Fields.setting_stored Value.reads_bool hnames "immutable" d.immutable hnone
      (hafter _ (by simp [fieldsAfter])),
    Fields.setting_stored Value.reads_bool hnames "constexpr" d.constexpr hnone
      (hafter _ (by simp [fieldsAfter])),
    Fields.setting_stored Value.reads_bool hnames "static" d.static hnone
      (hafter _ (by simp [fieldsAfter])),
    Fields.setting_stored Value.reads_int hnames "reference" d.reference hnone
      (hafter _ (by simp [fieldsAfter])),
    Fields.setting_stored Value.reads_text hnames "value" d.value hnone
      (hafter _ (by simp [fieldsAfter])),
    Fields.setting_stored Value.reads_text hnames "sourceName" d.sourceName hsource
      (hafter _ (by simp [fieldsAfter])),
    Fields.setting_stored Value.reads_int hnames "begin" d.beginLine hnone
      (hafter _ (by simp [fieldsAfter])),
    Fields.setting_stored Value.reads_int hnames "decl" d.declLine hnone
      (hafter _ (by simp [fieldsAfter])),
    Fields.setting_stored Value.reads_int hnames "end" d.endLine hnone
      (hafter _ (by simp [fieldsAfter]))]
  rfl

end SignatureDraft

/-! ## Entries at any depth -/

/-- An entry is read from its own fields and from its members. -/
theorem EntryDraft.ofValue_table (fields : Keyed Value) :
    ofValue (.table fields) =
      EntryDraft.mk <$> SignatureDraft.ofFields fields <*> membersIn fields := by
  rw [ofValue.eq_def]

/-- The members are the field of that name. -/
theorem EntryDraft.membersIn_eq (fields : List (String × Value)) :
    membersIn fields =
      match Keyed.find? fields "entries" with
      | some value => membersOf value
      | none => .valid .unset := by
  induction fields with
  | nil => rw [membersIn, Keyed.find?_nil]
  | cons pair fields ih =>
    obtain ⟨key, value⟩ := pair
    rw [membersIn, Keyed.find?]
    split
    · rfl
    · exact ih

/-- What stands under one name, as it is read before the lists are checked. -/
def SlotDraft.spelled : SlotDraft → Spelled
  | .single entry => .one entry
  | .overloads first more => .many (first :: more)

/-- Slots are settled as they were spelled. -/
theorem Spelled.settle_spelled (slots : List (String × SlotDraft)) :
    settle (slots.map fun pair => (pair.1, pair.2.spelled)) = .valid slots := by
  induction slots with
  | nil => rw [List.map_nil, settle]
  | cons pair slots ih =>
    obtain ⟨key, slot⟩ := pair
    rw [List.map_cons]
    cases slot with
    | single entry =>
      change settle ((key, .one entry) :: _) = _
      rw [settle, ih]
      rfl
    | overloads first more =>
      change settle ((key, .many (first :: more)) :: _) = _
      rw [settle, ih]
      rfl

namespace EntryDraft

/-- The members of an entry as the value of a field. -/
def membersValue : Setting (List (String × SlotDraft)) → Option Value
  | .unset => none
  | .null => some .null
  | .given members => some (.table (SlotDraft.toFields .saved members))

/-- An entry that is saved holds those of its fields that have a value. -/
theorem toValue_saved (signature : SignatureDraft) (members : Setting (List (String × SlotDraft))) :
    toValue .saved ⟨signature, members⟩ =
      .table (Fields.stored (signature.allFields (membersValue members))) := by
  cases members with
  | unset => rw [toValue, Fields.table_saved]; rfl
  | null => rw [toValue, Fields.table_saved]; rfl
  | given members => rw [toValue, Fields.table_saved]; rfl

/-- A stored entry is read as it was when its members are. -/
theorem ofValue_toValue_of_members (signature : SignatureDraft)
    (members : Setting (List (String × SlotDraft)))
    (h : ∀ value, membersValue members = some value → membersOf value = .valid members) :
    ofValue (toValue .saved ⟨signature, members⟩) = .valid ⟨signature, members⟩ := by
  have hfind := Fields.find?_stored (signature.nodup_allFields _)
    (signature.members_mem_allFields (membersValue members))
  dsimp only at hfind
  rw [toValue_saved, ofValue_table, signature.ofFields_stored, membersIn_eq, hfind]
  cases members with
  | unset => rfl
  | null =>
    rw [membersValue]
    dsimp only
    rw [membersOf]
    rfl
  | given members =>
    rw [membersValue]
    dsimp only
    rw [h _ rfl]
    rfl

end EntryDraft

mutual

/-- A stored entry is read as it was. -/
theorem EntryDraft.ofValue_toValue : (d : EntryDraft) →
    EntryDraft.ofValue (d.toValue .saved) = .valid d
  | ⟨signature, .unset⟩ => EntryDraft.ofValue_toValue_of_members signature .unset nofun
  | ⟨signature, .null⟩ => EntryDraft.ofValue_toValue_of_members signature .null fun value h => by
    cases h
    rw [EntryDraft.membersOf]
  | ⟨signature, .given members⟩ => EntryDraft.ofValue_toValue_of_members signature (.given members)
    fun value h => by
      cases h
      rw [EntryDraft.membersOf, SlotDraft.spelledFields_toFields members, Checked.andThen,
        Spelled.settle_spelled]
      rfl

/-- What stands under one name is read as it was. -/
theorem SlotDraft.spelled_toValue : (slot : SlotDraft) →
    EntryDraft.spelled (slot.toValue .saved) = .valid slot.spelled
  | .single ⟨signature, members⟩ => by
    have hentry := EntryDraft.ofValue_toValue ⟨signature, members⟩
    rw [EntryDraft.toValue_saved] at hentry
    rw [SlotDraft.toValue, EntryDraft.toValue_saved, EntryDraft.spelled, hentry]
    · rfl
    · nofun
  | .overloads first more => by
    rw [SlotDraft.toValue, EntryDraft.spelled, EntryDraft.ofValues,
      EntryDraft.ofValue_toValue first, EntryDraft.ofValues_toValues more]
    rfl

/-- Stored overloads are read as they were. -/
theorem EntryDraft.ofValues_toValues : (drafts : List EntryDraft) →
    EntryDraft.ofValues (EntryDraft.toValues .saved drafts) = .valid drafts
  | [] => by rw [EntryDraft.toValues, EntryDraft.ofValues]
  | draft :: drafts => by
    rw [EntryDraft.toValues, EntryDraft.ofValues, EntryDraft.ofValue_toValue draft,
      EntryDraft.ofValues_toValues drafts]
    rfl

/-- Stored members are read as they were. -/
theorem SlotDraft.spelledFields_toFields : (slots : List (String × SlotDraft)) →
    EntryDraft.spelledFields (SlotDraft.toFields .saved slots) =
      .valid (slots.map fun pair => (pair.1, pair.2.spelled))
  | [] => by
    rw [SlotDraft.toFields, EntryDraft.spelledFields]
    rfl
  | (key, slot) :: slots => by
    rw [SlotDraft.toFields, EntryDraft.spelledFields, SlotDraft.spelled_toValue slot,
      SlotDraft.spelledFields_toFields slots]
    rfl

end

/-- Tables of entries are read as they were written. -/
theorem Entries.reads : Value.Reads Entries.ofValue Entries.toValue := by
  refine ⟨fun entries => ?_, fun _ => nofun⟩
  rw [Entries.ofValue, Entries.toValue, SlotDraft.ofValue, SlotDraft.spelledFields_toFields,
    Checked.andThen, Spelled.settle_spelled, Checked.map_valid, Slot.entries_drafts]

/-! ## Headers and interfaces -/

namespace Header

/-- A field that may be missing is read as it was written, under its first name. -/
theorem missing_stored {α : Type} {check : Value → Checked α} {write : α → Value}
    {fields : List Fields.Written} {names : List String} (hreads : Value.Reads check write)
    (hnames : (fields.map Fields.Written.name).Nodup) (name : String) (content : Option α)
    (haliases : ∀ other ∈ names, other ∉ fields.map Fields.Written.name)
    (h : present write name content ∈ fields) :
    missing check (Fields.stored fields) (name :: names) = .valid content := by
  have hfind := Fields.find?_stored_aliases hnames h haliases
  rw [show (present write name content).name = name from rfl] at hfind
  unfold missing
  cases content with
  | none =>
    rw [Fields.setting, hfind]
    rfl
  | some a =>
    rw [Fields.setting_of_find? hreads hfind]
    rfl

/-- The fields of a header. -/
def allFields (h : Header) : List Fields.Written := [
  .always "name" (.text h.name),
  .always "doc" (.text h.doc),
  .always "entries" h.entries.toValue,
  present Value.texts "includes" h.includes,
  present Value.texts "localIncludes" h.localIncludes,
  present .int "docBegin" h.docBegin,
  present .int "docEnd" h.docEnd,
  present .int "entriesBegin" h.entriesBegin,
  present .int "entriesEnd" h.entriesEnd]

theorem names_allFields (h : Header) :
    h.allFields.map Fields.Written.name =
      ["name", "doc", "entries", "includes", "localIncludes", "docBegin", "docEnd",
        "entriesBegin", "entriesEnd"] := rfl

/-- A stored header is read as it was. -/
theorem reads : Value.Reads ofValue toValue := by
  refine ⟨fun h => ?_, fun _ => nofun⟩
  have hnames : (h.allFields.map Fields.Written.name).Nodup := by
    rw [names_allFields]
    decide
  have hnone := List.forall_mem_nil fun other => other ∉ h.allFields.map Fields.Written.name
  have hother : ∀ name ∈ ["local_includes", "doc_begin", "doc_end", "entries_begin",
      "entries_end"], ∀ other ∈ [name], other ∉ h.allFields.map Fields.Written.name := by
    rw [names_allFields]
    decide
  -- the doc and the entries are always written, but may be missing when they are read
  have hdoc : .defaulted .text "doc" (some h.doc) .null ∈ h.allFields := .tail _ (.head _)
  have hentries : .defaulted Entries.toValue "entries" (some h.entries) .null ∈ h.allFields :=
    .tail _ (.tail _ (.head _))
  have hvalue : h.toValue = .table (Fields.stored h.allFields) := Fields.table_saved _
  rw [hvalue]
  change ofFields (Fields.stored h.allFields) = _
  rw [ofFields,
    Fields.required_stored Value.reads_text hnames "name" h.name (by simp [allFields]),
    Fields.optional_stored Value.reads_text hnames "doc" (some h.doc) .null hnone hdoc,
    Fields.optional_stored Entries.reads hnames "entries" (some h.entries) .null hnone hentries,
    missing_stored Value.reads_texts hnames "includes" h.includes hnone (by simp [allFields]),
    missing_stored Value.reads_texts hnames "localIncludes" h.localIncludes
      (hother _ (by decide)) (by simp [allFields]),
    missing_stored Value.reads_int hnames "docBegin" h.docBegin (hother _ (by decide))
      (by simp [allFields]),
    missing_stored Value.reads_int hnames "docEnd" h.docEnd (hother _ (by decide))
      (by simp [allFields]),
    missing_stored Value.reads_int hnames "entriesBegin" h.entriesBegin (hother _ (by decide))
      (by simp [allFields]),
    missing_stored Value.reads_int hnames "entriesEnd" h.entriesEnd (hother _ (by decide))
      (by simp [allFields])]
  rfl

end Header

/-- A value that is read from its JSON text as it was. -/
def Json.IsKept (value : Value) : Prop := parse? (pretty .unicode value).toList = some value

/-- **Interfaces that are stored and read again.**  The record of an interface, in which what is
missing is left out, is read as the interface itself: the same files, entries and overloads, at any
depth and in the same order.  So is its JSON text, if the text keeps the record. -/
theorem Api.ofValue_stored (api : Api) :
    ofValue api.toValue = .valid api ∧
      (Json.IsKept api.toValue → ofJson api.toJson = .valid api) := by
  have hfiles (value : Value) : Fields.find? [("files", value)] ["files"] = some value := rfl
  have hread : ofValue api.toValue = .valid api := by
    change (fun files => Api.mk (files.getD [])) <$> Fields.optional _ _ ["files"] = _
    rw [Fields.optional, hfiles]
    dsimp only
    rw [Header.reads.table.valid api.files]
    rfl
  refine ⟨hread, fun hkept => ?_⟩
  have hparse : Json.parse? api.toJson.toList = some api.toValue := hkept
  rw [ofJson, hparse]
  exact hread

/-- An interface with a record, two overloads, and empty lists and texts beside missing ones. -/
def storedApi : Api where
  files := [("rect.hpp", {
    name := "rect.hpp"
    includes := some []
    entries := [
      ("Rect", .single ⟨{ name := "Rect", kind := .struct, type := some "" },
        some [("w", .single { name := "w", kind := .var, value := some "0" })]⟩),
      ("area", .overloads
        { name := "area", kind := .function, parameters := some [] }
        [{ name := "area", kind := .function
           parameters := some [.named "r" "Rect" none, .raw "..."] }])] })]

set_option maxRecDepth 8000 in
/-- An interface with overloads and members is stored and read, as a value and as a text. -/
theorem Api.ofValue_stored_rect :
    ofValue storedApi.toValue = .valid storedApi ∧ Json.IsKept storedApi.toValue ∧
      ofJson storedApi.toJson = .valid storedApi := by
  have hkept : Json.IsKept storedApi.toValue := by
    rw [Json.IsKept, Json.pretty, String.toList_ofList]
    rfl
  obtain ⟨hread, hload⟩ := Api.ofValue_stored storedApi
  exact ⟨hread, hkept, hload hkept⟩

end HeaderApi
