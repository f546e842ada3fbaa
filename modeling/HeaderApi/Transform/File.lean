import HeaderApi.Header.Basic
import HeaderApi.Transform.Entry

/-!
# Transforming files

A file takes its target name, its fixed entries come first, and the targets of its own entries
follow.  All files of a run share one set of type maps.
-/

namespace HeaderApi.Transform

open Text

variable [CharacterNames]

/-- What changes while the files of an interface are transformed. -/
structure Run where
  context : Context
  rules : Rules
  log : Log := []
  deriving Inhabited

/-- A fixed entry is in its target form and stands for itself. -/
def fixed (entry : Entry) : Entry :=
  if entry.sourceName.isSome then entry else { entry with sourceName := some entry.name }

/-- The fixed entries of a file by their keys. -/
def fixedTable (file : FileRules) : Entries :=
  Keyed.ofPairs (file.fixedEntries.map fun entry => (entry.key, Slot.single (fixed entry)))

/-- The fixed entries and then the others.  A fixed entry takes the place of one with its key. -/
def mergeFixed (table : Entries) : Entries → Entries × List String
  | [] => (table, [])
  | (key, slot) :: rest =>
    if Keyed.contains table key then
      let (result, replaced) := mergeFixed table rest
      (result, key :: replaced)
    else mergeFixed (Keyed.insert table key slot) rest

/-- The doc of a target file; it begins with the name of the file. -/
def fileDoc (name : String) (doc : String) : List Char :=
  if startsWith "@file".toList doc.toList then doc.toList
  else trim ("@file ".toList ++ name.toList ++ "\n\n".toList ++ doc.toList)

/-- The name of a target file: the one that its rules give, or the default. -/
def fileName (file : FileRules) (default : String) : String :=
  match file.name.get? with
  | some name => if name = "" then default else name
  | none => default

/-- Runs the steps of one file. -/
def withFile {α : Type} (key : Option String) (steps : Step α) : EStateM Error Run α := fun run =>
  match steps ⟨run.context, run.rules.fileRules key, run.log⟩ with
  | .ok a s => .ok a ⟨s.context, run.rules.setFileRules key s.file, s.log⟩
  | .error e s => .error e ⟨s.context, run.rules.setFileRules key s.file, s.log⟩

/-- Transforms one file under known names. -/
def fileSteps (rules : Rules) (source : Header) (name : String) : Step Header := do
  let file := (← get).file
  note .info ("Transforming " ++ source.name ++ " into " ++ name)
  let results ← transformEntries rules [] source.entries
  let (entries, replaced) := mergeFixed (fixedTable file) results
  replaced.forM fun key => note .debug (name ++ ": " ++ key ++ " replaced by a fixed entry")
  let doc ← ofRule (Replacement.applyAll rules.allDocRules
    (fileDoc name (file.doc.get?.getD source.doc)))
  return {
    name, entries
    doc := String.ofList doc
    includes := file.includes.get? <|> source.includes
    localIncludes := file.localIncludes.get? <|> source.localIncludes }

/-- Transforms one file. -/
def transformFile (source : Header) : EStateM Error Run Header := do
  let rules := (← get).rules
  match rules.targetFileName source.name with
  | .error e => throw (.pattern e)
  | .ok default =>
    let key := rules.fileKey? source.name default
    withFile key (fileSteps rules source (fileName (rules.fileRules key) default))

/-- Transforms files in order. -/
def transformFiles : Keyed Header → Keyed Header → EStateM Error Run (Keyed Header)
  | results, [] => return results
  | results, (_, source) :: rest => do
    let header ← transformFile source
    transformFiles (Keyed.insert results header.name header) rest

/-- Whether a file is selected; without a selection all are. -/
def isSelected (names : Option (List String)) (name : String) : Bool :=
  match names with
  | some names => names.contains name
  | none => true

/-- The outcome of a run: the target, the mismatches, and the rules with the names that patches
were given. -/
structure Outcome where
  api : Api
  warnings : List Mismatch
  rules : Rules

/-- Transforms the files of an interface, or those that are named. -/
def transformApi (rules : Rules) (names : Option (List String)) (api : Api) :
    Logged Error Outcome :=
  let selected := api.files.filter fun pair => isSelected names pair.1
  match transformFiles [] selected ⟨.ofRules rules, rules, []⟩ with
  | .error e run => ⟨run.log, .error e⟩
  | .ok files run =>
    ⟨run.log ++ run.context.warnings.map fun m => ⟨.warning, m.message⟩,
      .ok ⟨⟨files⟩, run.context.warnings, run.rules⟩⟩

end HeaderApi.Transform
