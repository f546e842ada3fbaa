import HeaderApi.Data.Format
import HeaderApi.Proofs.StoredRecords
import HeaderApi.Rules.Record
import HeaderApi.Transform.File

/-!
# Rules that are saved and loaded again

Rules are saved with the fields that are set, at every depth.  Loading what was saved gives the
same rules, and the same fields are set; so a transformation can not tell them apart.
-/

namespace HeaderApi

open Text

/-! ## Records of rules -/

/-- Data that is taken as it is. -/
theorem Value.reads_table : Reads (checkTable .valid) .table := by
  refine ⟨fun table => ?_, fun _ => nofun⟩
  have hpairs : Checked.list (fun pair : String × Value => (pair.1, ·) <$> Checked.valid pair.2)
      table = .valid (table.map id) := Checked.list_eq_valid table fun _ _ => rfl
  rw [List.map_id] at hpairs
  exact hpairs

section Containers

variable {α : Type} {check : Value → Checked α} {write : α → Value}

theorem Value.Reads.ofList (h : Reads check write) : Reads (checkList check) (ofList write) :=
  h.list

theorem Value.Reads.ofKeyed (h : Reads check write) : Reads (checkTable check) (ofKeyed write) :=
  h.table

theorem Value.reads_ofTexts : Reads (checkTable checkText) ofTexts := reads_text.table

end Containers

namespace Replacement

/-- Replacement rules are read as they were written. -/
theorem reads : Value.Reads ofValue toValue := by
  constructor
  · intro rule
    rfl
  · intro rule
    exact nofun

end Replacement

namespace TypeRule

/-- The fields of a rule that is a record. -/
def allFields (kind : String) (name : Setting String) : List Fields.Written :=
  [.always "kind" (.text kind), .nullable .text "name" name]

/-- A declared type is read as it was written. -/
theorem ofValue_declared (kind : String) (name : Setting String) :
    ofValue ((declared kind name).toValue .saved) = .valid (declared kind name) := by
  have hnames : ((allFields kind name).map Fields.Written.name).Nodup := by
    simp [allFields]
  have hvalue : (declared kind name).toValue .saved =
      .table (Fields.stored (allFields kind name)) := Fields.table_saved _
  rw [hvalue]
  change declared <$> Fields.required Value.checkText _ ["kind"] <*>
    Fields.setting Value.checkText _ ["name"] = _
  rw [Fields.required_stored Value.reads_text hnames "kind" kind (by simp [allFields]),
    Fields.setting_stored Value.reads_text hnames "name" name (List.forall_mem_nil _)
      (by simp [allFields])]
  rfl

/-- A rule for a type is read as the word or the record that it was. -/
theorem reads : Value.Reads ofValue (toValue .saved) := by
  constructor
  · intro rule
    cases rule with
    | resource => rfl
    | declared kind name => exact ofValue_declared kind name
  · intro rule
    cases rule with
    | resource => exact nofun
    | declared kind name => exact nofun

end TypeRule

namespace Patch

/-- The fields of a patch. -/
def allFields (p : Patch) : List Fields.Written := [
  .nullable .text "name" p.name,
  .nullable .text "kind" p.kind,
  .nullable .text "doc" p.doc,
  .nullable .text "type" p.type,
  .nullable (SignatureDraft.parametersValue .saved) "parameters" p.parameters,
  .nullable (SignatureDraft.parametersValue .saved) "template" p.template,
  .nullable .table "entries" p.entries,
  .nullable .bool "immutable" p.immutable,
  .nullable .bool "constexpr" p.constexpr,
  .nullable .bool "static" p.static,
  .nullable .int "reference" p.reference,
  .nullable .text "value" p.value]

theorem names_allFields (p : Patch) :
    p.allFields.map Fields.Written.name =
      ["name", "kind", "doc", "type", "parameters", "template", "entries", "immutable",
        "constexpr", "static", "reference", "value"] := by
  simp [allFields]

/-- A patch is read with the fields that it sets, null or not, and no others. -/
theorem reads : Value.Reads ofValue (toValue .saved) := by
  refine ⟨fun p => ?_, fun _ => nofun⟩
  have hnames : (p.allFields.map Fields.Written.name).Nodup := by
    rw [names_allFields]
    decide
  have hnone := List.forall_mem_nil fun other => other ∉ p.allFields.map Fields.Written.name
  have hvalue : p.toValue .saved = .table (Fields.stored p.allFields) := Fields.table_saved _
  rw [hvalue, ofValue, Value.checkRecord, Value.fields?]
  dsimp only
  rw [Fields.setting_stored Value.reads_text hnames "name" p.name hnone (by simp [allFields]),
    Fields.setting_stored Value.reads_text hnames "kind" p.kind hnone (by simp [allFields]),
    Fields.setting_stored Value.reads_text hnames "doc" p.doc hnone (by simp [allFields]),
    Fields.setting_stored Value.reads_text hnames "type" p.type hnone (by simp [allFields]),
    Fields.setting_stored SignatureDraft.reads_parameters hnames "parameters" p.parameters hnone
      (by simp [allFields]),
    Fields.setting_stored SignatureDraft.reads_parameters hnames "template" p.template hnone
      (by simp [allFields]),
    Fields.setting_stored Value.reads_table hnames "entries" p.entries hnone
      (by simp [allFields]),
    Fields.setting_stored Value.reads_bool hnames "immutable" p.immutable hnone
      (by simp [allFields]),
    Fields.setting_stored Value.reads_bool hnames "constexpr" p.constexpr hnone
      (by simp [allFields]),
    Fields.setting_stored Value.reads_bool hnames "static" p.static hnone (by simp [allFields]),
    Fields.setting_stored Value.reads_int hnames "reference" p.reference hnone
      (by simp [allFields]),
    Fields.setting_stored Value.reads_text hnames "value" p.value hnone (by simp [allFields])]
  rfl

end Patch

/-! ## Rules for files -/

namespace FixedEntries

/-- The fields of fixed entries. -/
def allFields (fixed : FixedEntries) : List Fields.Written :=
  [.defaulted (Value.ofList (EntryDraft.toValue .saved)) "begin" fixed.first (.list [])]

/-- Fixed entries are read as they were written. -/
theorem reads_drafts : Value.Reads EntryDraft.ofValue (EntryDraft.toValue .saved) := by
  refine ⟨EntryDraft.ofValue_toValue, fun draft => ?_⟩
  obtain ⟨signature, members⟩ := draft
  rw [EntryDraft.toValue_saved]
  exact nofun

/-- Fixed entries are read with the fields that each of them sets, at any depth. -/
theorem reads : Value.Reads ofValue (toValue .saved) := by
  refine ⟨fun fixed => ?_, fun _ => nofun⟩
  have hnames : (fixed.allFields.map Fields.Written.name).Nodup := by
    simp [allFields]
  have hvalue : fixed.toValue .saved = .table (Fields.stored fixed.allFields) :=
    Fields.table_saved _
  rw [hvalue, ofValue, Value.checkRecord, Value.fields?]
  dsimp only
  rw [Fields.optional_stored reads_drafts.ofList hnames "begin" fixed.first (.list [])
    (List.forall_mem_nil _) List.mem_cons_self]
  rfl

end FixedEntries

namespace FileRules

/-- The fields of the rules for a file. -/
def allFields (rules : FileRules) : List Fields.Written := [
  .nullable .text "name" rules.name,
  .nullable .text "doc" rules.doc,
  .defaulted Value.texts "includeDefs" rules.includeDefs (.list []),
  .defaulted Value.texts "ignoreEntries" rules.ignoreEntries (.list []),
  .defaulted (FixedEntries.toValue .saved) "includeAt" rules.includeAt
    (FixedEntries.toValue .full {}),
  .defaulted (Value.ofKeyed (Patch.toValue .saved)) "transform" rules.patches (.table []),
  .defaulted (Value.ofKeyed (TypeRule.toValue .saved)) "types" rules.types (.table []),
  .nullable Value.texts "includes" rules.includes,
  .nullable Value.texts "localIncludes" rules.localIncludes]

theorem names_allFields (rules : FileRules) :
    rules.allFields.map Fields.Written.name =
      ["name", "doc", "includeDefs", "ignoreEntries", "includeAt", "transform", "types",
        "includes", "localIncludes"] := by
  simp [allFields]

/-- The rules for a file are read as they were; the names with underscores are not written. -/
theorem reads : Value.Reads ofValue (toValue .saved) := by
  refine ⟨fun rules => ?_, fun _ => nofun⟩
  have hnames : (rules.allFields.map Fields.Written.name).Nodup := by
    rw [names_allFields]
    decide
  have hnone := List.forall_mem_nil fun other => other ∉ rules.allFields.map Fields.Written.name
  have hother : ∀ name ∈ ["include_defs", "ignore_entries", "include_at", "local_includes"],
      ∀ other ∈ [name], other ∉ rules.allFields.map Fields.Written.name := by
    rw [names_allFields]
    decide
  have hvalue : rules.toValue .saved = .table (Fields.stored rules.allFields) :=
    Fields.table_saved _
  rw [hvalue, ofValue, Value.checkRecord, Value.fields?]
  dsimp only
  rw [Fields.setting_stored Value.reads_text hnames "name" rules.name hnone (by simp [allFields]),
    Fields.setting_stored Value.reads_text hnames "doc" rules.doc hnone (by simp [allFields]),
    Fields.optional_stored Value.reads_texts hnames "includeDefs" rules.includeDefs (.list [])
      (hother _ (by decide)) (by simp [allFields]),
    Fields.optional_stored Value.reads_texts hnames "ignoreEntries" rules.ignoreEntries (.list [])
      (hother _ (by decide)) (by simp [allFields]),
    Fields.optional_stored FixedEntries.reads hnames "includeAt" rules.includeAt
      (FixedEntries.toValue .full {}) (hother _ (by decide)) (by simp [allFields]),
    Fields.optional_stored Patch.reads.ofKeyed hnames "transform" rules.patches (.table []) hnone
      (by simp [allFields]),
    Fields.optional_stored TypeRule.reads.ofKeyed hnames "types" rules.types (.table []) hnone
      (by simp [allFields]),
    Fields.setting_stored Value.reads_texts hnames "includes" rules.includes hnone
      (by simp [allFields]),
    Fields.setting_stored Value.reads_texts hnames "localIncludes" rules.localIncludes
      (hother _ (by decide)) (by simp [allFields])]
  rfl

end FileRules

/-! ## All rules -/

namespace Rules

/-- The fields of rules. -/
def allFields (rules : Rules) : List Fields.Written := [
  .defaulted Value.texts "prefixes" rules.prefixes (.list []),
  .defaulted (Value.ofList Replacement.toValue) "renameRules" rules.renameRules (.list []),
  .defaulted (Value.ofList Replacement.toValue) "docRules" rules.docRules
    (Value.ofList Replacement.toValue standardDocRules),
  .defaulted Value.ofTexts "typeMap" rules.typeMap (.table []),
  .defaulted Value.ofTexts "paramTypeMap" rules.paramTypeMap (.table []),
  .defaulted Value.ofTexts "returnTypeMap" rules.returnTypeMap (.table []),
  .defaulted (Value.ofKeyed (FileRules.toValue .saved)) "files" rules.files (.table [])]

theorem names_allFields (rules : Rules) :
    rules.allFields.map Fields.Written.name =
      ["prefixes", "renameRules", "docRules", "typeMap", "paramTypeMap", "returnTypeMap",
        "files"] := rfl

/-- Saved rules are read as they were. -/
theorem reads : Value.Reads ofValue (toValue .saved) := by
  refine ⟨fun rules => ?_, fun _ => nofun⟩
  have hnames : (rules.allFields.map Fields.Written.name).Nodup := by
    rw [names_allFields]
    decide
  have hnone := List.forall_mem_nil fun other => other ∉ rules.allFields.map Fields.Written.name
  have hother : ∀ name ∈ ["rename_rules", "doc_rules", "type_map", "param_type_map",
      "return_type_map"], ∀ other ∈ [name], other ∉ rules.allFields.map Fields.Written.name := by
    rw [names_allFields]
    decide
  have hvalue : rules.toValue .saved = .table (Fields.stored rules.allFields) :=
    Fields.table_saved _
  rw [hvalue, ofValue, Value.checkRecord, Value.fields?]
  dsimp only
  rw [Fields.optional_stored Value.reads_texts hnames "prefixes" rules.prefixes (.list []) hnone
      (by simp [allFields]),
    Fields.optional_stored Replacement.reads.ofList hnames "renameRules" rules.renameRules
      (.list [])
      (hother _ (by decide)) (by simp [allFields]),
    Fields.optional_stored Replacement.reads.ofList hnames "docRules" rules.docRules
      (Value.ofList Replacement.toValue standardDocRules) (hother _ (by decide))
      (by simp [allFields]),
    Fields.optional_stored Value.reads_ofTexts hnames "typeMap" rules.typeMap (.table [])
      (hother _ (by decide)) (by simp [allFields]),
    Fields.optional_stored Value.reads_ofTexts hnames "paramTypeMap" rules.paramTypeMap
      (.table []) (hother _ (by decide)) (by simp [allFields]),
    Fields.optional_stored Value.reads_ofTexts hnames "returnTypeMap" rules.returnTypeMap
      (.table []) (hother _ (by decide)) (by simp [allFields]),
    Fields.optional_stored FileRules.reads.ofKeyed hnames "files" rules.files (.table []) hnone
      (by simp [allFields])]
  rfl

end Rules

/-! ## Files of rules -/

/-- A value whose text in a file of this format is read as the value. -/
def DataFormat.Keeps (format : DataFormat) (value : Value) : Prop :=
  format.read (String.ofList (unifyNewlines (format.print value).toList)) = .ok value

namespace Directory

variable {d d' : Directory} {p place : Path} {text : String}

/-- Files do not matter for where a path leads to. -/
theorem follow_congr (h : d'.folders = d.folders) {whole : String} {parts : List String}
    (hplace : d.follow whole p parts = .ok place) : d'.follow whole p parts = .ok place := by
  induction parts generalizing p with
  | nil => exact hplace
  | cons part parts ih =>
    have hfolder : d'.isFolder p = d.isFolder p := by
      rw [isFolder, isFolder, h]
    rw [follow] at hplace ⊢
    rw [hfolder]
    split at hplace
    · rename_i his
      rw [if_pos his]
      exact ih hplace
    · split at hplace
      · cases hplace
      · cases hplace

theorem locate_congr (h : d'.folders = d.folders) (hplace : d.locate p = .ok place) :
    d'.locate p = .ok place := follow_congr h hplace

/-- What was written to a file is read from it. -/
theorem read_of_write (h : d.write p text = .ok d') :
    d'.read p = .ok (String.ofList (unifyNewlines text.toList)) := by
  unfold write at h
  cases hplace : d.locate p with
  | error e =>
    rw [hplace] at h
    cases h
  | ok place =>
    rw [hplace] at h
    change (if d.isFolder place then _ else _) = _ at h
    split at h
    · cases h
    · rename_i hfile
      cases h
      have hsame : locate { d with files := Keyed.insert d.files place.toText text } p =
          .ok place := locate_congr (d := d) rfl hplace
      unfold read
      rw [hsame]
      change (if isFolder d place then _ else _) = _
      rw [if_neg hfile]
      dsimp only
      rw [Keyed.find?_insert, if_pos rfl]
      rfl

/-- A record that was written to a file is read from it when the format keeps its data. -/
theorem readRecord_of_writeRecord {α : Type} {check : Value → Checked α} {write : α → Value}
    (hreads : Value.Reads check write) {a : α} (hkept : (DataFormat.ofPath p).Keeps (write a))
    (h : d.writeRecord p (write a) = .ok d') : d'.readRecord check p = .ok a := by
  have htext := read_of_write h
  unfold readRecord readText
  rw [htext]
  change ((DataFormat.ofPath p).read _ >>= fun value => _) = _
  rw [hkept]
  change ((check (write a)).toExcept.mapError DataError.invalid) = _
  rw [hreads.valid]
  rfl

end Directory

namespace Rules

/-- Rules that are the same after they have been saved and loaded: with the same contents, the
same fields are set, at every depth. -/
structure Reloads (rules : Rules) : Prop where
  ofValue_saved : ofValue (rules.toValue .saved) = .valid rules
  readRecord_saved : ∀ (d d' : Directory) (p : Path),
    (DataFormat.ofPath p).Keeps (rules.toValue .saved) →
      d.writeRecord p (rules.toValue .saved) = .ok d' → d'.readRecord ofValue p = .ok rules

/-- All rules can be saved and read again. -/
theorem reloads (rules : Rules) : rules.Reloads := by
  constructor
  · exact reads.valid rules
  · intro d d' p hkept hwrite
    exact Directory.readRecord_of_writeRecord reads hkept hwrite

/-- **Saved rules.**  Loading what was saved gives the rules that the first loading gave, which
keep of every field whether it is set; also from a file, when its format keeps the data.  It is
the same for the rules that a transformation leaves, in which it has set the names of patches. -/
theorem ofValue_toValue_saved [CharacterNames] {value : Value} {rules : Rules}
    (h : ofValue value = .valid rules) :
    ofValue (rules.toValue .saved) = ofValue value ∧ rules.Reloads ∧
      ∀ names api outcome, (Transform.transformApi rules names api).outcome = .ok outcome →
        outcome.rules.Reloads := by
  refine ⟨?_, rules.reloads, fun names api outcome _ => outcome.rules.reloads⟩
  rw [h]
  exact rules.reloads.ofValue_saved

/-- A fixed entry with one field that is null; all other fields but its name and kind are unset. -/
def surfaceDraft : EntryDraft where
  signature := {
    name := "Surface", kind := .struct, doc := none, type := .unset, parameters := .unset
    template := .unset, immutable := .unset, constexpr := .unset, static := .unset
    reference := .unset, value := .unset, sourceName := .null, beginLine := .unset
    declLine := .unset, endLine := .unset }
  members := .unset

/-- Rules for a file: a fixed entry, a patch with a field that is null, and a type rule of each
form. -/
def windowFileRules (name : Setting String) : FileRules where
  includeDefs := some []
  includeAt := some { first := some [surfaceDraft] }
  patches := some [("Window", { name, doc := .given "A window.", value := .null })]
  types := some [("SDL_Window", .resource), ("SDL_Renderer", .declared "resource" .unset)]

/-- Rules with this one file, whose patch has the given name. -/
def windowSettings (name : Setting String) : Rules where
  prefixes := some ["SDL_"]
  docRules := some []
  files := some [("SDL_video.h", windowFileRules name)]

/-- Data of these rules, in which one field is spelled with an underscore. -/
def windowData : Value := .table [
  ("prefixes", .list [.text "SDL_"]),
  ("doc_rules", .list []),
  ("files", .table [("SDL_video.h", (windowFileRules .unset).toValue .saved)])]

/-- An interface with a declaration that the patch is for. -/
def windowSource : Api where
  files := [("SDL_video.h", {
    name := "SDL_video.h"
    entries := [("SDL_Window-forward", .single { name := "SDL_Window", kind := .forward })] })]

/-- The rules are read from their data. -/
theorem ofValue_windowData : ofValue windowData = .valid (windowSettings .unset) := by
  have hfiles : Value.checkTable FileRules.ofValue
      (.table [("SDL_video.h", (windowFileRules .unset).toValue .saved)]) =
        .valid [("SDL_video.h", windowFileRules .unset)] :=
    FileRules.reads.ofKeyed.valid [("SDL_video.h", windowFileRules .unset)]
  change mk <$> Checked.valid (some ["SDL_"]) <*> Checked.valid none <*> Checked.valid (some [])
    <*> Checked.valid none <*> Checked.valid none <*> Checked.valid none
    <*> (some <$> Value.checkTable FileRules.ofValue _) = _
  rw [hfiles]
  rfl

set_option maxRecDepth 8000 in
theorem keeps_windowSettings :
    DataFormat.json.Keeps ((windowSettings .unset).toValue .saved) := by
  rw [DataFormat.Keeps, DataFormat.print, Json.pretty, String.toList_ofList, DataFormat.read,
    String.toList_ofList]
  rfl

set_option maxRecDepth 8000 in
/-- Rules with a patch without a name, before a run and behind it. -/
theorem ofValue_toValue_saved_window :
    ofValue windowData = .valid (windowSettings .unset) ∧
      ofValue ((windowSettings .unset).toValue .saved) = ofValue windowData ∧
      (∃ d', Directory.writeRecord {} (.ofText "rules.json")
          ((windowSettings .unset).toValue .saved) = .ok d' ∧
        d'.readRecord ofValue (.ofText "rules.json") = .ok (windowSettings .unset)) ∧
      ∃ outcome,
        (Transform.transformApi (windowSettings .unset) none windowSource).outcome = .ok outcome ∧
          outcome.rules = windowSettings (.given "Window") ∧
          ofValue (outcome.rules.toValue .saved) = .valid (windowSettings (.given "Window")) := by
  obtain ⟨hsaved, hreloads, hrun⟩ := ofValue_toValue_saved ofValue_windowData
  refine ⟨ofValue_windowData, hsaved, ⟨_, rfl, ?_⟩, _, rfl, rfl, ?_⟩
  · exact hreloads.readRecord_saved {} _ (.ofText "rules.json") keeps_windowSettings rfl
  · exact (hrun none windowSource _ rfl).ofValue_saved

end Rules

end HeaderApi
