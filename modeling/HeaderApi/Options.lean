import HeaderApi.Amalgam.Basic
import HeaderApi.Data.Checked
import HeaderApi.Header.Builder

/-!
# Options as data

The options of each stage can be read from a record.  Every field may be left out.
-/

namespace HeaderApi

/-- A field with a default. -/
def Fields.orElse {α : Type} (default : α) (check : Value → Checked α) (fields : Keyed Value)
    (names : List String) : Checked α :=
  (·.getD default) <$> Fields.optional check fields names

/-- A policy by its name. -/
def FloatingDocs.check (value : Value) : Checked FloatingDocs :=
  value.checkText.andThen fun s =>
    if s = FloatingDocs.discard.label then .valid .discard
    else if s = FloatingDocs.append.label then .valid .append
    else .misfit

/-- Reads how a header is read. -/
def ParseOptions.ofValue (value : Value) : Checked ParseOptions :=
  value.checkRecord fun fields =>
    mk <$> Fields.orElse false Value.checkBool fields ["storeLineNumbers", "store_line_numbers"]
      <*> Fields.orElse false Value.checkBool fields ["tolerateUnknown", "tolerate_unknown"]
      <*> Fields.orElse .discard FloatingDocs.check fields ["floatingDocs", "floating_docs"]

/-- A text with a default. -/
def Fields.textOr (default : String) : Keyed Value → List String → Checked String :=
  Fields.orElse default Value.checkText

/-- Reads how headers are printed. -/
def HeaderOptions.ofValue (value : Value) : Checked HeaderOptions :=
  let standard : HeaderOptions := {}
  value.checkRecord fun fields =>
    mk <$> Fields.textOr standard.namespaceName fields ["namespace"]
      <*> Fields.textOr standard.guardStart fields ["guardPrefix", "guard_prefix"]
      <*> Fields.textOr standard.guardEnd fields ["guardSuffix", "guard_suffix"]

/-- Reads how headers are merged. -/
def AmalgamOptions.ofValue (value : Value) : Checked AmalgamOptions :=
  let standard : AmalgamOptions := {}
  value.checkRecord fun fields =>
    mk <$> Fields.textOr standard.namespaceName fields ["namespace"]
      <*> Fields.textOr standard.guard fields ["guard"]
      <*> Fields.textOr standard.title fields ["title"]
      <*> Fields.textOr standard.masterInclude fields ["masterInclude", "master_include"]
      <*> Fields.textOr standard.masterStart fields ["masterPrefix", "master_prefix"]

/-- How headers are merged, as data. -/
def AmalgamOptions.toValue (o : AmalgamOptions) : Value := .table [
  ("namespace", .text o.namespaceName),
  ("guard", .text o.guard),
  ("title", .text o.title),
  ("masterInclude", .text o.masterInclude),
  ("masterPrefix", .text o.masterStart)]

end HeaderApi
