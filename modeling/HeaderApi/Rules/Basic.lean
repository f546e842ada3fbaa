import HeaderApi.Entry.Draft
import HeaderApi.Pattern.Replacement

/-!
# Rules of a transformation

What a configuration says about names, types and files.  Each record keeps which of its fields
are set, so that a configuration can be written back as it was given.
-/

namespace HeaderApi

/-- How an alias is reclassified. -/
inductive TypeRule where
  | resource
  | declared (kind : String) (name : Setting String)
  deriving DecidableEq, Repr, Inhabited

/-- The kind that a rule declares. -/
def TypeRule.kind : TypeRule → String
  | .resource => "resource"
  | .declared kind _ => kind

/-- The name that a rule gives. -/
def TypeRule.name? : TypeRule → Option String
  | .resource => none
  | .declared _ name => name.get?

/-- Fields that replace those of a transformed entry. -/
structure Patch where
  name : Setting String := .unset
  kind : Setting String := .unset
  doc : Setting String := .unset
  type : Setting String := .unset
  parameters : Setting (List ParameterDraft) := .unset
  template : Setting (List ParameterDraft) := .unset
  /-- Members as data; they are read when the patch is applied. -/
  entries : Setting (Keyed Value) := .unset
  immutable : Setting Bool := .unset
  constexpr : Setting Bool := .unset
  static : Setting Bool := .unset
  reference : Setting Int := .unset
  value : Setting String := .unset
  deriving Inhabited

/-- Entries that are put into a file as they are. -/
structure FixedEntries where
  first : Option (List EntryDraft) := none
  deriving Inhabited

/-- The rules for one file. -/
structure FileRules where
  name : Setting String := .unset
  doc : Setting String := .unset
  includeDefs : Option (List String) := none
  ignoreEntries : Option (List String) := none
  includeAt : Option FixedEntries := none
  patches : Option (Keyed Patch) := none
  types : Option (Keyed TypeRule) := none
  includes : Setting (List String) := .unset
  localIncludes : Setting (List String) := .unset
  deriving Inhabited

namespace FileRules

/-- The fixed entries. -/
def fixedEntries (rules : FileRules) : List Entry :=
  ((rules.includeAt.bind FixedEntries.first).getD []).map EntryDraft.entry

/-- The rule for a type. -/
def typeRule? (rules : FileRules) (name : String) : Option TypeRule :=
  Keyed.find? (rules.types.getD []) name

/-- The patch for a name. -/
def patch? (rules : FileRules) (name : String) : Option Patch :=
  Keyed.find? (rules.patches.getD []) name

/-- The rules with a patch replaced. -/
def setPatch (rules : FileRules) (name : String) (patch : Patch) : FileRules :=
  { rules with patches := rules.patches.map fun patches => Keyed.insert patches name patch }

end FileRules

/-- The rules of a whole transformation. -/
structure Rules where
  /-- The openings that names lose. -/
  prefixes : Option (List String) := none
  renameRules : Option (List Replacement) := none
  docRules : Option (List Replacement) := none
  typeMap : Option (Keyed String) := none
  paramTypeMap : Option (Keyed String) := none
  returnTypeMap : Option (Keyed String) := none
  files : Option (Keyed FileRules) := none
  deriving Inhabited

namespace Rules

/-- Doc commands are written with an at sign. -/
def standardDocRules : List Replacement := [⟨"\\\\(\\w+)", "@\\1"⟩]

/-- The rules that docs go through. -/
def allDocRules (rules : Rules) : List Replacement := rules.docRules.getD standardDocRules

/-- The key of the rules for a file: the name of the source or else of the target. -/
def fileKey? (rules : Rules) (source target : String) : Option String :=
  let files := rules.files.getD []
  if Keyed.contains files source then some source
  else if Keyed.contains files target then some target
  else none

/-- The rules under a key; without rules of its own a file has empty ones. -/
def fileRules (rules : Rules) (key : Option String) : FileRules :=
  (key.bind fun k => Keyed.find? (rules.files.getD []) k).getD {}

/-- The rules with those of a file replaced. -/
def setFileRules (rules : Rules) (key : Option String) (file : FileRules) : Rules :=
  match key with
  | some k => { rules with files := rules.files.map fun files => Keyed.insert files k file }
  | none => rules

end Rules

end HeaderApi
