import HeaderApi.Entry.Record
import HeaderApi.Header.Basic
import HeaderApi.Json.Printer
import HeaderApi.Json.Reader

/-!
# Headers and interfaces as data

An interface is stored as JSON: the headers under their names, each with the fields that it has.
-/

namespace HeaderApi

/-- A list of texts as data. -/
def Value.texts (texts : List String) : Value := .list (texts.map .text)

/-- A list of texts. -/
def Value.checkTexts : Value → Checked (List String) := Value.checkList Value.checkText

namespace Header

/-- A field that is written when there is something to write. -/
def present {α : Type} (write : α → Value) (name : String) (content : Option α) :
    Fields.Written :=
  .defaulted write name content .null

/-- The header as data. -/
def toValue (h : Header) : Value := Fields.table .saved [
  .always "name" (.text h.name),
  .always "doc" (.text h.doc),
  .always "entries" h.entries.toValue,
  present Value.texts "includes" h.includes,
  present Value.texts "localIncludes" h.localIncludes,
  present .int "docBegin" h.docBegin,
  present .int "docEnd" h.docEnd,
  present .int "entriesBegin" h.entriesBegin,
  present .int "entriesEnd" h.entriesEnd]

/-- A field that may be left out or null. -/
def missing {α : Type} (check : Value → Checked α) (fields : Keyed Value) (names : List String) :
    Checked (Option α) :=
  Setting.get? <$> Fields.setting check fields names

/-- Reads a header from its fields. -/
def ofFields (fields : Keyed Value) : Checked Header :=
  mk <$> Fields.required Value.checkText fields ["name"]
    <*> ((·.getD "") <$> Fields.optional Value.checkText fields ["doc"])
    <*> ((·.getD []) <$> Fields.optional Entries.ofValue fields ["entries"])
    <*> missing Value.checkTexts fields ["includes"]
    <*> missing Value.checkTexts fields ["localIncludes", "local_includes"]
    <*> missing Value.checkInt fields ["docBegin", "doc_begin"]
    <*> missing Value.checkInt fields ["docEnd", "doc_end"]
    <*> missing Value.checkInt fields ["entriesBegin", "entries_begin"]
    <*> missing Value.checkInt fields ["entriesEnd", "entries_end"]

/-- Reads a header from data. -/
def ofValue (value : Value) : Checked Header := value.checkRecord ofFields

end Header

namespace Api

/-- The interface as data. -/
def toValue (api : Api) : Value :=
  .table [("files", .table (api.files.map fun (name, header) => (name, header.toValue)))]

/-- Reads an interface from data. -/
def ofValue (value : Value) : Checked Api :=
  value.checkRecord fun fields =>
    (fun files => ⟨files.getD []⟩) <$>
      Fields.optional (Value.checkTable Header.ofValue) fields ["files"]

/-- Reads an interface from JSON text. -/
def ofJson (text : String) : Checked Api :=
  match Json.parse? text.toList with
  | some value => ofValue value
  | none => .misfit

/-- The JSON text of an interface. -/
def toJson (api : Api) : String := Json.pretty .unicode api.toValue

end Api

end HeaderApi
