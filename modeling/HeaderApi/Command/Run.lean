import HeaderApi.Amalgam.Directory
import HeaderApi.Amalgam.Printer
import HeaderApi.Command.Basic
import HeaderApi.Data.Format
import HeaderApi.Header.Sources
import HeaderApi.Options
import HeaderApi.Rules.Record
import HeaderApi.Transform.File

/-!
# Running commands

A command reads and writes files of a directory, and its run leaves a report: an exit code, what
it printed, and the directory after it.
-/

namespace HeaderApi

open Text

variable [CharacterNames]

/-- A reason why a command stops. -/
inductive Failure where
  /-- A failure that is told to the user. -/
  | reported (message : String)
  | file (e : FileError)
  | data (e : DataError)
  | transform (e : Transform.Error)
  deriving DecidableEq, Repr, Inhabited

/-- What changes while a command runs. -/
structure Workspace where
  directory : Directory
  log : Log := []
  deriving Inhabited

/-- A step of a command; what was done before a failure is kept. -/
abbrev Task := EStateM Failure Workspace

/-- What a command prints: its result, and lines about it. -/
structure Printed where
  output : String := ""
  notes : List String := []
  deriving DecidableEq, Repr, Inhabited

namespace Task

/-- A computation that writes log lines. -/
def ofLogged {ε α : Type} (fail : ε → Failure) (x : Logged ε α) : Task α := do
  modify fun w => { w with log := w.log ++ x.log }
  match x.outcome with
  | .ok a => return a
  | .error e => throw (fail e)

/-- A computation without log lines. -/
def ofExcept {ε α : Type} (fail : ε → Failure) (x : Except ε α) : Task α :=
  match x with
  | .ok a => pure a
  | .error e => throw (fail e)

/-- Writes a log line. -/
def note (level : Level) (text : String) : Task Unit :=
  modify fun w => { w with log := w.log ++ [⟨level, text⟩] }

/-- Takes the directory after a change. -/
def change (f : Directory → Except FileError Directory) : Task Unit := do
  let d ← ofExcept .file (f (← get).directory)
  modify fun w => { w with directory := d }

/-- Writes a text to a file, or leaves it to be printed. -/
def emit (output : Option Path) (toFile printed : String) : Task String := do
  match output with
  | none => return printed
  | some path =>
    change fun d => d.write path toFile
    return ""

/-- The stored interface in a file. -/
def readApi (path : Path) : Task Api := do
  let text ← ofExcept .file ((← get).directory.read path)
  ofExcept (fun e => .data (.invalid e)) (Api.ofJson text).toExcept

/-- Stores an interface in a file, or prints it. -/
def emitApi (api : Api) (output : Option Path) : Task String :=
  emit output api.toJson (api.toJson ++ "\n")

end Task

/-! ## The commands -/

namespace Command

/-- A number of things. -/
def counted (verb : String) (n : Nat) (things : String) : String :=
  verb ++ " " ++ String.ofList (Decimal.digits n) ++ " " ++ things

/-- Reads headers into a stored interface. -/
def runParse (sources : List String) (base : Path) (options : ParseOptions)
    (output : Option Path) : Task Printed := do
  let failure : SourceError → Failure
    | .unread e => .file e
    | .malformed source e => .reported (SourceError.malformed source e).message
  let api ← Task.ofLogged failure (Api.ofSources (← get).directory base options sources)
  let printed ← Task.emitApi api output
  return ⟨printed, [counted "Parsed" api.files.length "file(s)"]⟩

/-- Transforms a stored interface. -/
def runTransform (source rules : Path) (names : List String) (output : Option Path) :
    Task Printed := do
  let rules ← Task.ofExcept .data ((← get).directory.readRecord Rules.ofValue rules)
  let api ← Task.readApi source
  let selection := if names = [] then none else some names
  let outcome ← Task.ofLogged .transform (Transform.transformApi rules selection api)
  let printed ← Task.emitApi outcome.api output
  let warnings := outcome.warnings.map fun m => "warning: " ++ m.message
  return ⟨printed, warnings ++ [counted "Transformed" outcome.api.files.length
    (counted "file(s) with" outcome.warnings.length "warning(s)")]⟩

/-- Writes one header file. -/
def writeHeader (folder : Path) (name : String) (lines : List Line) : Task Unit := do
  let path := folder.join (.ofText name)
  Task.note .info ("Writing " ++ path.toText)
  Task.change fun d => d.write path (String.ofList (joinLines lines ++ ['\n']))

/-- Writes the headers of a stored interface. -/
def runGenerate (target folder : Path) (namespaceName : String) : Task Printed := do
  let api ← Task.readApi target
  Task.change fun d => d.makeFolder folder
  let options : HeaderOptions := { namespaceName }
  (api.toLines options).forM fun (name, lines) => writeHeader folder name lines
  return ⟨"", [counted "Wrote" api.files.length ("header(s) to " ++ folder.toText)]⟩

/-- Merge options, with those that were given on the command line in front. -/
def amalgamOptions (config : Option Path) (namespaceName guard masterInclude : Option String) :
    Task AmalgamOptions := do
  let options ← match config with
    | some path => Task.ofExcept .data ((← get).directory.readRecord AmalgamOptions.ofValue path)
    | none => pure {}
  return { options with
    namespaceName := namespaceName.getD options.namespaceName
    guard := guard.getD options.guard
    masterInclude := masterInclude.getD options.masterInclude }

/-- Merges a header and those that it includes. -/
def runAmalgamate (root : String) (base : Path) (output : Option Path)
    (options : AmalgamOptions) : Task Printed := do
  let failure : AmalgamError → Failure
    | .unread (.missing path) => .reported (FileError.missing path).message
    | .unread e => .file e
    | e => .reported e.message
  let c ← Task.ofLogged failure (Collection.ofDirectory (← get).directory base options root)
  let text ← Task.ofExcept failure (c.print options)
  let printed ← Task.emit output (String.ofList text) (String.ofList text)
  return ⟨printed, [counted "Amalgamated" c.parts.length "file(s)"]⟩

/-- Runs a command. -/
def run : Command → Task Printed
  | .parse sources base options output => runParse sources base options output
  | .transform source rules names output => runTransform source rules names output
  | .generate target folder namespaceName => runGenerate target folder namespaceName
  | .amalgamate root base output config namespaceName guard masterInclude => do
    let options ← amalgamOptions config namespaceName guard masterInclude
    runAmalgamate root base output options

end Command

/-! ## Reports -/

/-- What a run leaves. -/
structure Report where
  exitCode : Nat
  output : String := ""
  errors : String := ""
  /-- A failure that was not told to the user. -/
  failure : Option Failure := none
  directory : Directory
  deriving Inhabited

/-- Whether a level is shown. -/
def Level.isShown (verbose : Bool) : Level → Bool
  | .debug => verbose
  | _ => true

/-- The lines of a log that are shown. -/
def Log.shown (verbose : Bool) (log : Log) : List String :=
  (log.filter fun l => l.level.isShown verbose).map fun l => l.level.label ++ ": " ++ l.text

/-- Lines, each with its end. -/
def linesText (lines : List String) : String := String.join (lines.map (· ++ "\n"))

/-- Runs an invocation on a directory. -/
def Invocation.report (i : Invocation) (d : Directory) : Report :=
  match i.command.run ⟨d, []⟩ with
  | .ok printed w =>
    { exitCode := 0
      output := printed.output
      errors := linesText (Log.shown i.verbose w.log ++ printed.notes)
      directory := w.directory }
  | .error (.reported message) w =>
    { exitCode := 1
      errors := linesText (Log.shown i.verbose w.log ++ ["Error: " ++ message])
      directory := w.directory }
  | .error failure w =>
    { exitCode := 1
      errors := linesText (Log.shown i.verbose w.log)
      failure := some failure
      directory := w.directory }

/-- How the program is called. -/
def usage : List String := [
  "Usage: header-api [--verbose] COMMAND [OPTIONS] ARGUMENTS",
  "  parse SOURCES... [--base-dir DIR] [--line-numbers] [--tolerate-unknown]",
  "    [--floating-docs discard|append] [--output FILE]",
  "  transform SOURCE --config FILE [--file NAME]... [--output FILE]",
  "  generate TARGET --output-dir DIR [--namespace NAME]",
  "  amalgamate ROOT [--base-dir DIR] [--output FILE] [--config FILE] [--namespace NAME]",
  "    [--guard NAME] [--master-include NAME]"]

/-- Runs the program on a directory. -/
def runArguments (d : Directory) (args : List String) : Report :=
  match Invocation.ofArguments d args with
  | .ok invocation => invocation.report d
  | .error .help => { exitCode := 0, output := linesText usage, directory := d }
  | .error .usage => { exitCode := 2, errors := linesText usage, directory := d }

end HeaderApi
