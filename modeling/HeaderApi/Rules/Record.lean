import HeaderApi.Header.Record
import HeaderApi.Rules.Basic

/-!
# Rules as data

Rules are read from data and written back, either as they were given or with every field.
-/

namespace HeaderApi

/-- A table of texts as data. -/
def Value.ofTexts (table : Keyed String) : Value :=
  .table (table.map fun (key, content) => (key, .text content))

/-- A table as data. -/
def Value.ofKeyed {α : Type} (write : α → Value) (table : Keyed α) : Value :=
  .table (table.map fun (key, value) => (key, write value))

/-- A list as data. -/
def Value.ofList {α : Type} (write : α → Value) (items : List α) : Value := .list (items.map write)

namespace Replacement

/-- Reads a replacement rule. -/
def ofValue (value : Value) : Checked Replacement :=
  value.checkRecord fun fields =>
    mk <$> Fields.required Value.checkText fields ["pattern"]
      <*> Fields.required Value.checkText fields ["replacement"]

/-- The rule as data. -/
def toValue (rule : Replacement) : Value :=
  .table [("pattern", .text rule.pattern), ("replacement", .text rule.template)]

end Replacement

namespace TypeRule

/-- Reads a rule for a type: the word for a resource, or a record. -/
def ofValue : Value → Checked TypeRule
  | .text s => if s = "resource" then .valid .resource else .misfit
  | value => value.checkRecord fun fields =>
    declared <$> Fields.required Value.checkText fields ["kind"]
      <*> Fields.setting Value.checkText fields ["name"]

/-- The rule as data. -/
def toValue (form : Fields.Form) : TypeRule → Value
  | .resource => .text "resource"
  | .declared kind name => Fields.table form [
      .always "kind" (.text kind),
      .nullable .text "name" name]

end TypeRule

namespace Patch

/-- Reads a patch. -/
def ofValue (value : Value) : Checked Patch :=
  value.checkRecord fun fields =>
    mk <$> Fields.setting Value.checkText fields ["name"]
      <*> Fields.setting Value.checkText fields ["kind"]
      <*> Fields.setting Value.checkText fields ["doc"]
      <*> Fields.setting Value.checkText fields ["type"]
      <*> Fields.setting SignatureDraft.checkParameters fields ["parameters"]
      <*> Fields.setting SignatureDraft.checkParameters fields ["template"]
      <*> Fields.setting (Value.checkTable .valid) fields ["entries"]
      <*> Fields.setting Value.checkBool fields ["immutable"]
      <*> Fields.setting Value.checkBool fields ["constexpr"]
      <*> Fields.setting Value.checkBool fields ["static"]
      <*> Fields.setting Value.checkInt fields ["reference"]
      <*> Fields.setting Value.checkText fields ["value"]

/-- The patch as data. -/
def toValue (form : Fields.Form) (p : Patch) : Value := Fields.table form [
  .nullable .text "name" p.name,
  .nullable .text "kind" p.kind,
  .nullable .text "doc" p.doc,
  .nullable .text "type" p.type,
  .nullable (SignatureDraft.parametersValue form) "parameters" p.parameters,
  .nullable (SignatureDraft.parametersValue form) "template" p.template,
  .nullable .table "entries" p.entries,
  .nullable .bool "immutable" p.immutable,
  .nullable .bool "constexpr" p.constexpr,
  .nullable .bool "static" p.static,
  .nullable .int "reference" p.reference,
  .nullable .text "value" p.value]

end Patch

namespace FixedEntries

/-- Reads fixed entries. -/
def ofValue (value : Value) : Checked FixedEntries :=
  value.checkRecord fun fields =>
    mk <$> Fields.optional (Value.checkList EntryDraft.ofValue) fields ["begin"]

/-- The fixed entries as data. -/
def toValue (form : Fields.Form) (fixed : FixedEntries) : Value := Fields.table form [
  .defaulted (Value.ofList (EntryDraft.toValue form)) "begin" fixed.first (.list [])]

end FixedEntries

namespace FileRules

/-- Reads the rules for a file. -/
def ofValue (value : Value) : Checked FileRules :=
  value.checkRecord fun fields =>
    mk <$> Fields.setting Value.checkText fields ["name"]
      <*> Fields.setting Value.checkText fields ["doc"]
      <*> Fields.optional Value.checkTexts fields ["includeDefs", "include_defs"]
      <*> Fields.optional Value.checkTexts fields ["ignoreEntries", "ignore_entries"]
      <*> Fields.optional FixedEntries.ofValue fields ["includeAt", "include_at"]
      <*> Fields.optional (Value.checkTable Patch.ofValue) fields ["transform"]
      <*> Fields.optional (Value.checkTable TypeRule.ofValue) fields ["types"]
      <*> Fields.setting Value.checkTexts fields ["includes"]
      <*> Fields.setting Value.checkTexts fields ["localIncludes", "local_includes"]

/-- The rules for a file as data. -/
def toValue (form : Fields.Form) (rules : FileRules) : Value := Fields.table form [
  .nullable .text "name" rules.name,
  .nullable .text "doc" rules.doc,
  .defaulted Value.texts "includeDefs" rules.includeDefs (.list []),
  .defaulted Value.texts "ignoreEntries" rules.ignoreEntries (.list []),
  .defaulted (FixedEntries.toValue form) "includeAt" rules.includeAt
    (FixedEntries.toValue .full {}),
  .defaulted (Value.ofKeyed (Patch.toValue form)) "transform" rules.patches (.table []),
  .defaulted (Value.ofKeyed (TypeRule.toValue form)) "types" rules.types (.table []),
  .nullable Value.texts "includes" rules.includes,
  .nullable Value.texts "localIncludes" rules.localIncludes]

end FileRules

namespace Rules

/-- Reads rules. -/
def ofValue (value : Value) : Checked Rules :=
  value.checkRecord fun fields =>
    mk <$> Fields.optional Value.checkTexts fields ["prefixes"]
      <*> Fields.optional (Value.checkList Replacement.ofValue) fields
        ["renameRules", "rename_rules"]
      <*> Fields.optional (Value.checkList Replacement.ofValue) fields ["docRules", "doc_rules"]
      <*> Fields.optional (Value.checkTable Value.checkText) fields ["typeMap", "type_map"]
      <*> Fields.optional (Value.checkTable Value.checkText) fields
        ["paramTypeMap", "param_type_map"]
      <*> Fields.optional (Value.checkTable Value.checkText) fields
        ["returnTypeMap", "return_type_map"]
      <*> Fields.optional (Value.checkTable FileRules.ofValue) fields ["files"]

/-- The rules as data. -/
def toValue (form : Fields.Form) (rules : Rules) : Value := Fields.table form [
  .defaulted Value.texts "prefixes" rules.prefixes (.list []),
  .defaulted (Value.ofList Replacement.toValue) "renameRules" rules.renameRules (.list []),
  .defaulted (Value.ofList Replacement.toValue) "docRules" rules.docRules
    (Value.ofList Replacement.toValue standardDocRules),
  .defaulted Value.ofTexts "typeMap" rules.typeMap (.table []),
  .defaulted Value.ofTexts "paramTypeMap" rules.paramTypeMap (.table []),
  .defaulted Value.ofTexts "returnTypeMap" rules.returnTypeMap (.table []),
  .defaulted (Value.ofKeyed (FileRules.toValue form)) "files" rules.files (.table [])]

end Rules

end HeaderApi
