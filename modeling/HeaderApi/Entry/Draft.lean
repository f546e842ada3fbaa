import HeaderApi.Data.Checked
import HeaderApi.Entry.Basic

/-!
# Entries as they are spelled in data

A draft keeps which fields of an entry a data file sets.  A draft gives an entry, and it can be
written back as it was spelled.
-/

namespace HeaderApi

/-! ## Parameters -/

/-- A parameter as it is spelled. -/
inductive ParameterDraft where
  | raw (text : String)
  | named (name : String) (type : Option String) (default : Setting String)
  deriving DecidableEq, Repr, Inhabited

namespace ParameterDraft

/-- The parameter of a draft. -/
def parameter : ParameterDraft → Parameter
  | .raw text => .raw text
  | .named name type default => .named name (type.getD "") default.get?

/-- Reads a parameter: a text is a raw parameter, a record a named one. -/
def ofValue : Value → Checked ParameterDraft
  | .text s => .valid (.raw s)
  | value => value.checkRecord fun fields =>
    named <$> Fields.required Value.checkText fields ["name"]
      <*> Fields.optional Value.checkText fields ["type"]
      <*> Fields.setting Value.checkText fields ["default"]

/-- The parameter as data. -/
def toValue (form : Fields.Form) : ParameterDraft → Value
  | .raw text => .text text
  | .named name type default => Fields.table form [
      .always "name" (.text name),
      .defaulted .text "type" type (.text ""),
      .nullable .text "default" default]

end ParameterDraft

/-! ## Signatures -/

/-- What a draft says about an entry, its members apart. -/
structure SignatureDraft where
  name : String
  kind : EntryKind
  doc : Option String
  type : Setting String
  parameters : Setting (List ParameterDraft)
  template : Setting (List ParameterDraft)
  immutable : Setting Bool
  constexpr : Setting Bool
  static : Setting Bool
  reference : Setting Int
  value : Setting String
  sourceName : Setting String
  beginLine : Setting Int
  declLine : Setting Int
  endLine : Setting Int
  deriving DecidableEq, Repr

namespace SignatureDraft

/-- The parameters of a field. -/
def parametersOf (content : Setting (List ParameterDraft)) : Option (List Parameter) :=
  content.get?.map (List.map ParameterDraft.parameter)

/-- The signature of a draft. -/
def signature (d : SignatureDraft) : Signature where
  name := d.name
  kind := d.kind
  doc := d.doc.getD ""
  type := d.type.get?
  parameters := parametersOf d.parameters
  template := parametersOf d.template
  immutable := d.immutable.get?
  constexpr := d.constexpr.get?
  static := d.static.get?
  reference := d.reference.get?
  value := d.value.get?
  sourceName := d.sourceName.get?
  beginLine := d.beginLine.get?
  declLine := d.declLine.get?
  endLine := d.endLine.get?

/-- A kind of entry by its name. -/
def checkKind (value : Value) : Checked EntryKind :=
  (value.checkText).andThen fun s => .ofOption (EntryKind.ofLabel? s)

/-- A list of parameters. -/
def checkParameters : Value → Checked (List ParameterDraft) :=
  Value.checkList ParameterDraft.ofValue

/-- Reads the fields of a signature. -/
def ofFields (fields : Keyed Value) : Checked SignatureDraft :=
  mk <$> Fields.required Value.checkText fields ["name"]
    <*> Fields.required checkKind fields ["kind"]
    <*> Fields.optional Value.checkText fields ["doc"]
    <*> Fields.setting Value.checkText fields ["type"]
    <*> Fields.setting checkParameters fields ["parameters"]
    <*> Fields.setting checkParameters fields ["template"]
    <*> Fields.setting Value.checkBool fields ["immutable"]
    <*> Fields.setting Value.checkBool fields ["constexpr"]
    <*> Fields.setting Value.checkBool fields ["static"]
    <*> Fields.setting Value.checkInt fields ["reference"]
    <*> Fields.setting Value.checkText fields ["value"]
    <*> Fields.setting Value.checkText fields ["sourceName", "source_name"]
    <*> Fields.setting Value.checkInt fields ["begin"]
    <*> Fields.setting Value.checkInt fields ["decl"]
    <*> Fields.setting Value.checkInt fields ["end"]

/-- Parameters as data. -/
def parametersValue (form : Fields.Form) (parameters : List ParameterDraft) : Value :=
  .list (parameters.map (ParameterDraft.toValue form))

/-- The fields before the members. -/
def fieldsBefore (form : Fields.Form) (d : SignatureDraft) : List Fields.Written := [
  .always "name" (.text d.name),
  .always "kind" (.text d.kind.label),
  .defaulted .text "doc" d.doc (.text ""),
  .nullable .text "type" d.type,
  .nullable (parametersValue form) "parameters" d.parameters,
  .nullable (parametersValue form) "template" d.template]

/-- The fields after the members. -/
def fieldsAfter (d : SignatureDraft) : List Fields.Written := [
  .nullable .bool "immutable" d.immutable,
  .nullable .bool "constexpr" d.constexpr,
  .nullable .bool "static" d.static,
  .nullable .int "reference" d.reference,
  .nullable .text "value" d.value,
  .nullable .text "sourceName" d.sourceName,
  .nullable .int "begin" d.beginLine,
  .nullable .int "decl" d.declLine,
  .nullable .int "end" d.endLine]

end SignatureDraft

/-! ## Entries -/

mutual

/-- An entry as it is spelled. -/
structure EntryDraft where
  signature : SignatureDraft
  members : Setting (List (String × SlotDraft))

/-- What is spelled under one name. -/
inductive SlotDraft where
  | single (entry : EntryDraft)
  | overloads (first : EntryDraft) (more : List EntryDraft)

end

mutual

/-- The entry of a draft. -/
def EntryDraft.entry : EntryDraft → Entry
  | ⟨signature, .unset⟩ => ⟨signature.signature, none⟩
  | ⟨signature, .null⟩ => ⟨signature.signature, none⟩
  | ⟨signature, .given members⟩ => ⟨signature.signature, some (SlotDraft.entries members)⟩

/-- The slot of a draft. -/
def SlotDraft.slot : SlotDraft → Slot
  | .single entry => .single entry.entry
  | .overloads first more => .overloads first.entry (EntryDraft.entryList more)

/-- The entries of some drafts. -/
def EntryDraft.entryList : List EntryDraft → List Entry
  | [] => []
  | draft :: drafts => draft.entry :: EntryDraft.entryList drafts

/-- The table of some slots. -/
def SlotDraft.entries : List (String × SlotDraft) → List (String × Slot)
  | [] => []
  | (key, slot) :: slots => (key, slot.slot) :: SlotDraft.entries slots

end

/-! ## Writing -/

mutual

/-- The entry as data. -/
def EntryDraft.toValue (form : Fields.Form) : EntryDraft → Value
  | ⟨signature, .unset⟩ => Fields.table form
      (signature.fieldsBefore form ++ ⟨"entries", none, .null⟩ :: signature.fieldsAfter)
  | ⟨signature, .null⟩ => Fields.table form
      (signature.fieldsBefore form ++ ⟨"entries", some .null, .null⟩ :: signature.fieldsAfter)
  | ⟨signature, .given members⟩ => Fields.table form
      (signature.fieldsBefore form ++
        ⟨"entries", some (.table (SlotDraft.toFields form members)), .null⟩ ::
          signature.fieldsAfter)

/-- The slot as data: a record, or the list of its overloads. -/
def SlotDraft.toValue (form : Fields.Form) : SlotDraft → Value
  | .single entry => entry.toValue form
  | .overloads first more => .list (first.toValue form :: EntryDraft.toValues form more)

/-- Entries as data. -/
def EntryDraft.toValues (form : Fields.Form) : List EntryDraft → List Value
  | [] => []
  | draft :: drafts => draft.toValue form :: EntryDraft.toValues form drafts

/-- Slots as the fields of a table. -/
def SlotDraft.toFields (form : Fields.Form) : List (String × SlotDraft) → List (String × Value)
  | [] => []
  | (key, slot) :: slots => (key, slot.toValue form) :: SlotDraft.toFields form slots

end

/-! ## Reading -/

/-- A record or a list of records under one name. -/
inductive Spelled where
  | one (entry : EntryDraft)
  | many (entries : List EntryDraft)

/-- The slots under their names.  The first list without an entry is reported. -/
def Spelled.settle : List (String × Spelled) → Checked (List (String × SlotDraft))
  | [] => .valid []
  | (key, .one entry) :: rest =>
    (settle rest).andThen fun slots => .valid ((key, .single entry) :: slots)
  | (key, .many (first :: more)) :: rest =>
    (settle rest).andThen fun slots => .valid ((key, .overloads first more) :: slots)
  | (key, .many []) :: _ => .invalid ⟨[key]⟩

mutual

/-- Reads an entry. -/
def EntryDraft.ofValue : Value → Checked EntryDraft
  | .table fields =>
    EntryDraft.mk <$> SignatureDraft.ofFields fields <*> EntryDraft.membersIn fields
  | .mixed pairs =>
    EntryDraft.mk <$> SignatureDraft.ofFields (Value.textFields pairs)
      <*> EntryDraft.membersAmong pairs
  | _ => .misfit

/-- Reads the members among the fields of an entry. -/
def EntryDraft.membersIn :
    List (String × Value) → Checked (Setting (List (String × SlotDraft)))
  | [] => .valid .unset
  | (key, value) :: rest =>
    if key = "entries" then EntryDraft.membersOf value else EntryDraft.membersIn rest

/-- Reads the members among the pairs of an entry. -/
def EntryDraft.membersAmong :
    List (Value × Value) → Checked (Setting (List (String × SlotDraft)))
  | [] => .valid .unset
  | (key, value) :: rest =>
    if key.text? = some "entries" then EntryDraft.membersOf value
    else EntryDraft.membersAmong rest

/-- Reads members. -/
def EntryDraft.membersOf : Value → Checked (Setting (List (String × SlotDraft)))
  | .null => .valid .null
  | .table fields => .given <$> (EntryDraft.spelledFields fields).andThen Spelled.settle
  | _ => .misfit

/-- Reads what stands under each name. -/
def EntryDraft.spelledFields : List (String × Value) → Checked (List (String × Spelled))
  | [] => .valid []
  | (key, value) :: rest =>
    List.cons <$> ((key, ·) <$> EntryDraft.spelled value) <*> EntryDraft.spelledFields rest

/-- Reads a record or a list of records. -/
def EntryDraft.spelled : Value → Checked Spelled
  | .list items => .many <$> EntryDraft.ofValues items
  | value => .one <$> EntryDraft.ofValue value

/-- Reads entries. -/
def EntryDraft.ofValues : List Value → Checked (List EntryDraft)
  | [] => .valid []
  | value :: values => List.cons <$> EntryDraft.ofValue value <*> EntryDraft.ofValues values

end

/-- Reads a table of entries. -/
def SlotDraft.ofValue : Value → Checked (List (String × SlotDraft))
  | .table fields => (EntryDraft.spelledFields fields).andThen Spelled.settle
  | _ => .misfit

end HeaderApi
