import HeaderApi.File.Error
import HeaderApi.File.Path
import HeaderApi.Keyed
import HeaderApi.Text.Lines

/-!
# A directory in memory

The files that a command can see, by their paths from the current folder, and the folders that
hold them.
-/

namespace HeaderApi

open Text

/-- Files and folders by their paths. -/
structure Directory where
  files : Keyed String := []
  folders : List String := []
  deriving DecidableEq, Repr, Inhabited

/-- What a path leads to. -/
inductive FileStatus where
  | missing
  | file
  | folder
  deriving DecidableEq, Repr, Inhabited

namespace Directory

/-! ## Looking up -/

/-- Whether a path is a folder.  The current folder and the root always are. -/
def isFolder (d : Directory) (p : Path) : Bool := p.parts = [] || d.folders.contains p.toText

/-- Whether a path is a file. -/
def isFile (d : Directory) (p : Path) : Bool := Keyed.contains d.files p.toText

/-- The path one step further on; two dots lead to the folder around. -/
def step (p : Path) (part : String) : Path :=
  if part = ".." then
    match p.parts.getLast? with
    | none => if p.isAbsolute then p else { p with parts := [part] }
    | some last => if last = ".." then { p with parts := p.parts ++ [part] } else p.parent
  else { p with parts := p.parts ++ [part] }

/-- Follows parts from a path; every path but the last must be a folder.  Errors name the path
`whole`. -/
def follow (d : Directory) (whole : String) : Path → List String → Except FileError Path
  | p, [] => .ok p
  | p, part :: rest =>
    if d.isFolder p then follow d whole (step p part) rest
    else if d.isFile p then .error (.notDirectory whole)
    else .error (.missing whole)

/-- The path without two dots that a path leads to. -/
def locate (d : Directory) (p : Path) : Except FileError Path :=
  follow d p.toText { p with parts := [] } p.parts

/-- What a written path leads to; the empty text leads nowhere. -/
def status (d : Directory) (text : String) : FileStatus :=
  if text = "" then .missing
  else
    match d.locate (.ofText text) with
    | .error _ => .missing
    | .ok p => if d.isFolder p then .folder else if d.isFile p then .file else .missing

/-! ## Reading and writing -/

/-- The text of a file, with line feeds for all its ends of lines. -/
def read (d : Directory) (p : Path) : Except FileError String := do
  let place ← d.locate p
  if d.isFolder place then throw (.directory p.toText)
  match Keyed.find? d.files place.toText with
  | some text => return String.ofList (unifyNewlines text.toList)
  | none => throw (.missing p.toText)

/-- Writes a file into a folder that exists. -/
def write (d : Directory) (p : Path) (text : String) : Except FileError Directory := do
  let place ← d.locate p
  if d.isFolder place then throw (.directory p.toText)
  return { d with files := Keyed.insert d.files place.toText text }

/-- Makes a folder unless there is one. -/
def addFolder (d : Directory) (p : Path) : Directory :=
  if d.isFolder p then d else { d with folders := d.folders ++ [p.toText] }

/-- Makes the folders on the way along parts. -/
def makeFrom (whole : String) : Directory → Path → List String → Except FileError Directory
  | d, p, [] => if d.isFile p then .error (.notDirectory whole) else .ok (d.addFolder p)
  | d, p, part :: rest =>
    if d.isFile p then .error (.notDirectory whole)
    else makeFrom whole (d.addFolder p) (step p part) rest

/-- Makes a folder and the folders around it. -/
def makeFolder (d : Directory) (p : Path) : Except FileError Directory :=
  makeFrom p.toText d { p with parts := [] } p.parts

/-! ## Whole directories -/

/-- Puts a file in, with the folders around it. -/
def put (d : Directory) (path text : String) : Directory :=
  let p := Path.ofText path
  match d.makeFolder p.parent with
  | .ok d => { d with files := Keyed.insert d.files p.toText text }
  | .error _ => d

/-- The directory of some files. -/
def ofFiles (files : List (String × String)) : Directory :=
  files.foldl (fun d file => d.put file.1 file.2) {}

/-- The files that are new or different in a directory, sorted by path. -/
def changes (before after : Directory) : Keyed String :=
  (after.files.filter fun file => Keyed.find? before.files file.1 ≠ some file.2).mergeSort
    fun a b => a.1 ≤ b.1

end Directory

end HeaderApi
