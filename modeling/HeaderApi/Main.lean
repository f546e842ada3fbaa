import HeaderApi.Command.Run

/-!
# The program

Loads the files that the arguments can reach, runs the command on them, and writes back what it
changed.
-/

namespace HeaderApi.Program

/-- The deepest folder that is looked into. -/
def depthLimit : Nat := 32

/-- Puts the files below a folder into a directory.  Files that are no text are left out. -/
def gather : Nat → Directory → String → IO Directory
  | 0, d, _ => return d
  | depth + 1, d, folder => do
    let mut result := d
    for entry in ← (System.mkFilePath [folder]).readDir do
      let path := if folder = "." then entry.fileName else folder ++ "/" ++ entry.fileName
      if ← entry.path.isDir then
        match result.makeFolder (.ofText path) with
        | .ok next => result ← gather depth next path
        | .error _ => pure ()
      else
        try result := result.put path (← IO.FS.readFile entry.path)
        catch _ => pure ()
    return result

/-- The paths in arguments that lead out of the current folder. -/
def outsidePaths (args : List String) : List String :=
  let texts := args.flatMap fun arg => arg :: (arg.splitOn "=").drop 1
  texts.filter fun text => text.startsWith "/" || text.startsWith ".."

/-- Puts what a path leads to into a directory. -/
def load (d : Directory) (path : String) : IO Directory := do
  if ← (System.mkFilePath [path]).isDir then
    match d.makeFolder (.ofText path) with
    | .ok next => gather depthLimit next path
    | .error _ => return d
  else
    try return d.put path (← IO.FS.readFile path)
    catch _ => return d

/-- Writes the folders and files that are new or different. -/
def store (before after : Directory) : IO Unit := do
  for folder in after.folders do
    if !before.folders.contains folder then IO.FS.createDirAll folder
  for (path, text) in Directory.changes before after do
    IO.FS.writeFile path text

/-- What is said about a failure that the command did not report. -/
def failureText : Failure → String
  | .reported message => message
  | .file e => e.message
  | .data (.unread e) => e.message
  | .data (.malformed .json) => "malformed JSON"
  | .data (.malformed .yaml) => "malformed YAML"
  | .data (.invalid e) => e.message?.getD "invalid data"
  | .transform (.pattern (.pattern text)) => "invalid pattern " ++ text
  | .transform (.pattern (.template text)) => "invalid replacement " ++ text
  | .transform (.invalid e) => e.message?.getD "invalid patch"

end HeaderApi.Program

open HeaderApi HeaderApi.Program in
/-- Runs the command that the arguments write. -/
def main (args : List String) : IO UInt32 := do
  let here ← gather depthLimit {} "."
  let directory ← (outsidePaths args).foldlM load here
  let report := runArguments directory args
  store directory report.directory
  IO.print report.output
  IO.eprint report.errors
  if let some failure := report.failure then IO.eprintln (failureText failure)
  return UInt32.ofNat report.exitCode
