import HeaderApi.Entry.Record
import HeaderApi.Log
import HeaderApi.Transform.Context
import HeaderApi.Transform.Names

/-!
# Transforming entries

An entry takes its target name, its types go through the type maps, records become aliases of
their source types, and an alias that is declared as a resource becomes a class template.  Every
result remembers the name of its source.
-/

namespace HeaderApi.Transform

open Text

variable [CharacterNames]

/-- A reason why a transformation stops. -/
inductive Error where
  | pattern (e : PatternError)
  /-- A patch that gives no entry. -/
  | invalid (e : Invalid)
  deriving DecidableEq, Repr, Inhabited

/-- What changes while the entries of a file are transformed.  A patch without a name is given the
name of the entry to which it is first applied. -/
structure Session where
  context : Context
  file : FileRules
  log : Log := []
  deriving Inhabited

/-- A step of a transformation; what was done before a failure is kept. -/
abbrev Step := EStateM Error Session

/-- Writes a log line. -/
def note (level : Level) (text : String) : Step Unit :=
  modify fun s => { s with log := s.log ++ [⟨level, text⟩] }

/-- Changes the type maps. -/
def modifyContext (f : Context → Context) : Step Unit :=
  modify fun s => { s with context := f s.context }

/-- The result of a rule. -/
def ofRule {α : Type} (x : Except PatternError α) : Step α :=
  match x with
  | .ok a => pure a
  | .error e => throw (.pattern e)

/-! ## Selection -/

/-- Whether an entry is left out, by its source name or its target name.  Definitions are left out
unless they are asked for. -/
def isExcluded (file : FileRules) (entry : Signature) (name : String) : Bool :=
  let names := [entry.name, name]
  names.any (file.ignoreEntries.getD []).contains ||
    (entry.kind = .definition && !names.any (file.includeDefs.getD []).contains)

/-- The type rule for an entry, by its source name or its target name. -/
def ruleFor (file : FileRules) (entry : Signature) (name : String) : Option TypeRule :=
  file.typeRule? entry.name <|> file.typeRule? name

/-- Whether a type rule fits an entry. -/
def fits (entry : Signature) (rule : TypeRule) : Bool :=
  entry.kind = .typeAlias && rule.kind = "resource"

/-! ## Results -/

/-- The parameters with their target types. -/
def mapParameters (context : Context) (parameters : List Parameter) : List Parameter :=
  parameters.map fun
    | .named name type default => .named name (context.mapParamType type) default
    | .raw text => .raw text

/-- The name of the resource that an alias becomes. -/
def resourceName (rule : TypeRule) (name : String) : String :=
  match rule.name? with
  | some given => if given = "" then name else given
  | none => name

/-- What every result has: the target name, the source name, and the doc and lines of the
source. -/
def common (entry : Signature) (name : String) : Signature where
  name := name
  kind := entry.kind
  doc := entry.doc
  sourceName := some entry.name
  beginLine := entry.beginLine
  declLine := entry.declLine
  endLine := entry.endLine

/-- The class template of a resource. -/
def resourceSignature (entry : Signature) (resource : String) : Signature :=
  { common entry (resource ++ "Base") with
    kind := .struct
    type := some "T"
    template := some [.named "T" "class" none]
    parameters := some [.raw "using T::T;"] }

/-- The target of an entry that is no resource. -/
def plainSignature (context : Context) (entry : Signature) (name : String) : Signature :=
  let base := common entry name
  match entry.kind with
  | .function => { base with
      type := entry.type.map context.mapReturnType
      parameters := entry.parameters.map (mapParameters context)
      template := entry.template
      immutable := entry.immutable
      static := entry.static
      constexpr := entry.constexpr
      reference := entry.reference }
  | .var => { base with
      type := entry.type.map context.mapType
      value := entry.value
      static := entry.static
      constexpr := entry.constexpr }
  | .definition => { base with parameters := entry.parameters, value := entry.value }
  | .struct | .union | .enum | .callback =>
    { base with kind := .typeAlias, type := some entry.name }
  | .typeAlias => { base with type := some entry.name }
  | .forward => base

/-! ## Patches -/

/-- A field that may not be null. -/
def overText (setting : Setting String) (other : String) : Checked String :=
  match setting with
  | .unset => .valid other
  | .null => .misfit
  | .given s => .valid s

/-- The kind that a patch gives. -/
def overKind (setting : Setting String) (other : EntryKind) : Checked EntryKind :=
  (overText setting other.label).andThen fun s => .ofOption (EntryKind.ofLabel? s)

/-- The members that a patch gives. -/
def overMembers (setting : Setting (Keyed Value)) : Checked (Option Entries) :=
  match setting with
  | .given fields => some <$> Entries.ofValue (.table fields)
  | _ => .valid none

/-- A signature with the fields that a patch sets. -/
def patched (patch : Patch) (s : Signature) : Checked Entry :=
  let combine (name : String) (kind : EntryKind) (doc : String) (members : Option Entries) :
      Entry :=
    ⟨{ s with
      name, kind, doc
      type := patch.type.overriding s.type
      parameters :=
        (patch.parameters.map (List.map ParameterDraft.parameter)).overriding s.parameters
      template := (patch.template.map (List.map ParameterDraft.parameter)).overriding s.template
      immutable := patch.immutable.overriding s.immutable
      constexpr := patch.constexpr.overriding s.constexpr
      static := patch.static.overriding s.static
      reference := patch.reference.overriding s.reference
      value := patch.value.overriding s.value }, members⟩
  combine <$> overText patch.name s.name <*> overKind patch.kind s.kind <*>
    overText patch.doc s.doc <*> overMembers patch.entries

/-- A patch that has a name. -/
def withName (patch : Patch) (name : String) : Patch :=
  match patch.name with
  | .given _ => patch
  | _ => { patch with name := .given name }

/-- Applies the patch for a target name, and gives it a name. -/
def applyPatch (key : String) (s : Signature) : Step Entry := do
  match (← get).file.patch? key with
  | none => return ⟨s, none⟩
  | some patch =>
    let patch := withName patch s.name
    modify fun session => { session with file := session.file.setPatch key patch }
    match patched patch s with
    | .valid entry => return entry
    | .invalid e => throw (.invalid e)

/-! ## Entries -/

/-- The target of an entry before patches, and whether it is a resource. -/
def target (entry : Signature) (name : String) : Step (Signature × Bool) := do
  match ruleFor (← get).file entry name with
  | none => return (plainSignature (← get).context entry name, false)
  | some rule =>
    if fits entry rule then
      let resource := resourceName rule name
      modifyContext fun c => c.registerResource entry.name resource
      return (resourceSignature entry resource, true)
    else
      modifyContext fun c => c.warn ⟨entry.name, rule.kind, entry.kind.label⟩
      return (plainSignature (← get).context entry name, false)

/-- Whether an alias names itself. -/
def isSelfAlias (entry : Signature) : Bool :=
  entry.kind = .typeAlias && some entry.name = entry.type

/-- Makes an alias known to the type maps. -/
def registerResult (entry : Signature) : Step Unit :=
  match entry.kind, entry.type with
  | .typeAlias, some type =>
    if type = "" then pure () else modifyContext fun c => c.registerAlias type entry.name
  | _, _ => pure ()

/-- A result with its doc in the words of the target. -/
def documented (rules : Rules) (result : Entry) : Step (Option Entry) := do
  let doc ← ofRule (Replacement.applyAll rules.allDocRules result.doc.toList)
  return some { result with doc := String.ofList doc }

/-- Takes in a result; `none` when it is an alias of itself.  What is no resource is made known to
the type maps. -/
def accept (rules : Rules) (isResource : Bool) (result : Entry) : Step (Option Entry) :=
  if isResource then documented rules result
  else if isSelfAlias result.toSignature then do
    note .debug ("Dropping alias " ++ result.name ++ " to itself")
    return none
  else do
    registerResult result.toSignature
    documented rules result

/-- Transforms one entry; `none` when it is left out.  An entry that has a source name is a
result already.  Patches are only applied when `overrides` is set. -/
def transformEntry (rules : Rules) (overrides : Bool) (entry : Entry) : Step (Option Entry) := do
  if entry.sourceName.isSome then return some entry
  let name ← ofRule (rules.defaultName entry.name)
  if isExcluded (← get).file entry.toSignature name then
    note .debug ("Skipping " ++ entry.kind.label ++ " " ++ entry.name)
    return none
  let (signature, isResource) ← target entry.toSignature name
  let result ← if overrides then applyPatch name signature else pure ⟨signature, none⟩
  accept rules isResource result

/-! ## Tables -/

/-- Transforms overloads.  They all take the default name, and patches do not apply to them. -/
def transformOverloads (rules : Rules) : List Entry → Step (List Entry)
  | [] => return []
  | entry :: entries => do
    let result ← transformEntry rules false entry
    let later ← transformOverloads rules entries
    return result.toList ++ later

/-- Puts the target of an entry into a table unless its key is taken. -/
def addResult (results : Entries) (key : String) (entry : Entry) : Step Entries := do
  if Keyed.contains results entry.key then
    note .debug ("Ignoring duplicate " ++ entry.key ++ " from " ++ key)
    return results
  else return Keyed.insert results entry.key (.single entry)

/-- Puts overloads into a table under the name of the first one unless it is taken. -/
def addOverloads (results : Entries) (entries : List Entry) : Entries :=
  match entries with
  | [] => results
  | first :: more => Keyed.insertNew results first.name (.overloads first more)

/-- Transforms the slots of a table in order, given the results so far. -/
def transformEntries (rules : Rules) : Entries → Entries → Step Entries
  | results, [] => return results
  | results, (key, .single entry) :: rest => do
    match ← transformEntry rules true entry with
    | none => transformEntries rules results rest
    | some result => transformEntries rules (← addResult results key result) rest
  | results, (_, .overloads first more) :: rest => do
    let entries ← transformOverloads rules (first :: more)
    transformEntries rules (addOverloads results entries) rest

end HeaderApi.Transform
