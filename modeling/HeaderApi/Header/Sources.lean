import HeaderApi.File.Directory
import HeaderApi.Header.Builder

/-!
# Reading source files

The headers of an interface are read from files below a folder, each under its own name.
-/

namespace HeaderApi

open Text

/-- A reason why sources can not be read. -/
inductive SourceError where
  | unread (e : FileError)
  | malformed (source : String) (e : ParseError)
  deriving DecidableEq, Repr, Inhabited

/-- The message of an error. -/
def SourceError.message : SourceError → String
  | .unread e => e.message
  | .malformed source e => source ++ ": " ++ e.message

namespace Api

/-- Reads one source file below a folder. -/
def readSource (d : Directory) (base : Path) (options : ParseOptions) (source : String) :
    Logged SourceError Header := do
  let path := base.join (.ofText source)
  Logged.write .info ("Reading " ++ path.toText)
  let text ← Logged.ofExcept ((d.read path).mapError .unread)
  (Header.ofLines path.name options (lines text.toList)).mapError (.malformed source)

/-- Reads source files in order into an interface. -/
def readFrom (d : Directory) (base : Path) (options : ParseOptions) :
    Api → List String → Logged SourceError Api
  | api, [] => pure api
  | api, source :: rest => do
    let header ← readSource d base options source
    readFrom d base options ⟨Keyed.insert api.files header.name header⟩ rest

/-- The interface of source files below a folder. -/
def ofSources (d : Directory) (base : Path) (options : ParseOptions) (sources : List String) :
    Logged SourceError Api :=
  readFrom d base options {} sources

end Api

end HeaderApi
