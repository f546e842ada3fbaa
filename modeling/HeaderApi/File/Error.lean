import HeaderApi.Text.Quoted

/-!
# Errors of file access
-/

namespace HeaderApi

/-- A path that could not be read or written. -/
inductive FileError where
  | missing (path : String)
  | directory (path : String)
  | notDirectory (path : String)
  deriving DecidableEq, Repr, Inhabited

namespace FileError

/-- The path of an error. -/
def path : FileError → String
  | .missing path | .directory path | .notDirectory path => path

/-- The number and the text of the system's error. -/
def cause : FileError → String
  | .missing _ => "[Errno 2] No such file or directory"
  | .directory _ => "[Errno 21] Is a directory"
  | .notDirectory _ => "[Errno 20] Not a directory"

/-- The message of an error. -/
def message (e : FileError) : String :=
  e.cause ++ ": " ++ String.ofList (Text.quoted e.path.toList)

end FileError

end HeaderApi
