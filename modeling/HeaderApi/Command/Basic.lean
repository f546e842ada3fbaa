import HeaderApi.Amalgam.Basic
import HeaderApi.Command.Arguments
import HeaderApi.File.Directory
import HeaderApi.Header.Builder
import HeaderApi.Header.Printer

/-!
# Commands

The four commands and how they are written as arguments.  Paths that have to exist are checked
against the directory before a command is accepted.
-/

namespace HeaderApi

/-- What the program can be asked to do. -/
inductive Command where
  /-- Reads headers into a stored interface. -/
  | parse (sources : List String) (base : Path) (options : ParseOptions) (output : Option Path)
  /-- Transforms a stored interface, or the files of it that are named. -/
  | transform (source rules : Path) (names : List String) (output : Option Path)
  /-- Writes the headers of a stored interface. -/
  | generate (target folder : Path) (namespaceName : String)
  /-- Merges a header and those that it includes. -/
  | amalgamate (root : String) (base : Path) (output config : Option Path)
      (namespaceName guard masterInclude : Option String)
  deriving Inhabited

/-- A command and how much of its log is shown. -/
structure Invocation where
  verbose : Bool := false
  command : Command
  deriving Inhabited

/-- A reason why arguments are no command. -/
inductive Refusal where
  | usage
  | help
  deriving DecidableEq, Repr, Inhabited

namespace Command

/-! ## Options -/

/-- Every command explains itself. -/
def helpSpec : OptionSpec := ⟨"help", none, false⟩

/-- The options in front of a command. -/
def leadingSpecs : List OptionSpec := [⟨"verbose", some 'v', false⟩, helpSpec]

/-- The options for parsing. -/
def parseSpecs : List OptionSpec := [⟨"base-dir", none, true⟩, ⟨"line-numbers", none, false⟩,
  ⟨"tolerate-unknown", none, false⟩, ⟨"floating-docs", none, true⟩, ⟨"output", some 'o', true⟩,
  helpSpec]

/-- The options for transforming. -/
def transformSpecs : List OptionSpec := [⟨"config", none, true⟩, ⟨"file", none, true⟩,
  ⟨"output", some 'o', true⟩, helpSpec]

/-- The options for generating. -/
def generateSpecs : List OptionSpec := [⟨"output-dir", none, true⟩, ⟨"namespace", none, true⟩,
  helpSpec]

/-- The options for amalgamating. -/
def amalgamateSpecs : List OptionSpec := [⟨"base-dir", none, true⟩, ⟨"output", some 'o', true⟩,
  ⟨"config", none, true⟩, ⟨"namespace", none, true⟩, ⟨"guard", none, true⟩,
  ⟨"master-include", none, true⟩, helpSpec]

/-! ## Values -/

/-- The path of a value whose status is accepted. -/
def pathOf (d : Directory) (accepts : FileStatus → Bool) (text : String) : Except Refusal Path :=
  if accepts (d.status text) then .ok (.ofText text) else .error .usage

/-- A file that exists. -/
def existingFile (d : Directory) : String → Except Refusal Path := pathOf d (· = .file)

/-- A folder that exists. -/
def existingFolder (d : Directory) : String → Except Refusal Path := pathOf d (· = .folder)

/-- A place for a file. -/
def filePlace (d : Directory) : String → Except Refusal Path := pathOf d (· ≠ .folder)

/-- A place for a folder. -/
def folderPlace (d : Directory) : String → Except Refusal Path := pathOf d (· ≠ .file)

/-- The value of an option that may be left out. -/
def optional {α : Type} (read : String → Except Refusal α) (args : Arguments) (name : String) :
    Except Refusal (Option α) :=
  match args.value? name with
  | some text => (read text).map some
  | none => .ok none

/-- A value that must be given. -/
def required {α : Type} (read : String → Except Refusal α) (value : Option String) :
    Except Refusal α :=
  match value with
  | some text => read text
  | none => .error .usage

/-- The only word among arguments. -/
def onlyWord (args : Arguments) : Option String :=
  match args.words with
  | [word] => some word
  | _ => none

/-- A policy by its name in either case. -/
def floatingDocs (text : String) : Except Refusal FloatingDocs :=
  let word := text.map Char.toLower
  if word = FloatingDocs.discard.label then .ok .discard
  else if word = FloatingDocs.append.label then .ok .append
  else .error .usage

/-! ## Commands -/

/-- Reads the arguments of a command, unless they ask for help. -/
def arguments (specs : List OptionSpec) (args : List String) : Except Refusal Arguments :=
  match Arguments.read specs true args with
  | some args => if args.has "help" then .error .help else .ok args
  | none => .error .usage

/-- The command for parsing. -/
def parseOf (d : Directory) (args : Arguments) : Except Refusal Command := do
  let base ← existingFolder d ((args.value? "base-dir").getD ".")
  let policy ← optional floatingDocs args "floating-docs"
  let output ← optional (filePlace d) args "output"
  let options : ParseOptions :=
    ⟨args.has "line-numbers", args.has "tolerate-unknown", policy.getD .discard⟩
  if args.words = [] then .error .usage else return .parse args.words base options output

/-- The command for transforming. -/
def transformOf (d : Directory) (args : Arguments) : Except Refusal Command := do
  let source ← required (existingFile d) (onlyWord args)
  let rules ← required (existingFile d) (args.value? "config")
  let output ← optional (filePlace d) args "output"
  return .transform source rules (args.values "file") output

/-- The command for generating. -/
def generateOf (d : Directory) (args : Arguments) : Except Refusal Command := do
  let target ← required (existingFile d) (onlyWord args)
  let folder ← required (folderPlace d) (args.value? "output-dir")
  return .generate target folder
    ((args.value? "namespace").getD ({} : HeaderOptions).namespaceName)

/-- The command for amalgamating. -/
def amalgamateOf (d : Directory) (args : Arguments) : Except Refusal Command := do
  let root ← required Except.ok (onlyWord args)
  let base ← existingFolder d ((args.value? "base-dir").getD ".")
  let output ← optional (filePlace d) args "output"
  let config ← optional (existingFile d) args "config"
  return .amalgamate root base output config (args.value? "namespace") (args.value? "guard")
    (args.value? "master-include")

/-- The command of a name and its arguments. -/
def ofWords (d : Directory) (name : String) (args : List String) : Except Refusal Command :=
  match name with
  | "parse" => arguments parseSpecs args >>= parseOf d
  | "transform" => arguments transformSpecs args >>= transformOf d
  | "generate" => arguments generateSpecs args >>= generateOf d
  | "amalgamate" => arguments amalgamateSpecs args >>= amalgamateOf d
  | _ => .error .usage

end Command

/-- The invocation that arguments write. -/
def Invocation.ofArguments (d : Directory) (args : List String) : Except Refusal Invocation :=
  match Arguments.read Command.leadingSpecs false args with
  | none => .error .usage
  | some leading =>
    if leading.has "help" then .error .help
    else
      match leading.words with
      | [] => .error .usage
      | name :: rest => (Command.ofWords d name rest).map fun command =>
        ⟨leading.has "verbose", command⟩

end HeaderApi
