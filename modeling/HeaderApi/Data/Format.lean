import HeaderApi.Data.Checked
import HeaderApi.File.Directory
import HeaderApi.Json.Printer
import HeaderApi.Json.Reader
import HeaderApi.Yaml.Printer
import HeaderApi.Yaml.Reader

/-!
# Data files

A data file holds one value, as YAML when its name says so and as JSON otherwise.
-/

namespace HeaderApi

/-- How a data file is written. -/
inductive DataFormat where
  | json
  | yaml
  deriving DecidableEq, Repr, Inhabited

/-- A reason why a data file can not be used. -/
inductive DataError where
  | unread (e : FileError)
  /-- A text that does not follow its format. -/
  | malformed (format : DataFormat)
  /-- A value without the shape that is asked for. -/
  | invalid (e : Invalid)
  deriving DecidableEq, Repr, Inhabited

namespace DataFormat

/-- The format that a file name tells. -/
def ofPath (p : Path) : DataFormat :=
  if p.suffix = ".yaml" || p.suffix = ".yml" then .yaml else .json

/-- The value of a text.  An empty YAML value counts as an empty table. -/
def read (format : DataFormat) (text : String) : Except DataError Value :=
  match format with
  | .json =>
    match Json.parse? text.toList with
    | some value => .ok value
    | none => .error (.malformed .json)
  | .yaml =>
    match Yaml.parse? text.toList with
    | some value => .ok (if value.isNothing then .table [] else value)
    | none => .error (.malformed .yaml)

/-- The text of a value. -/
def print (format : DataFormat) (value : Value) : String :=
  match format with
  | .json => Json.pretty .ascii value
  | .yaml => Yaml.print value

end DataFormat

/-- The text of a file. -/
def Directory.readText (d : Directory) (p : Path) : Except DataError String :=
  (d.read p).mapError .unread

/-- The record in a data file. -/
def Directory.readRecord {α : Type} (check : Value → Checked α) (d : Directory) (p : Path) :
    Except DataError α := do
  let text ← d.readText p
  let value ← (DataFormat.ofPath p).read text
  (check value).toExcept.mapError .invalid

/-- Writes a data file. -/
def Directory.writeRecord (d : Directory) (p : Path) (value : Value) :
    Except FileError Directory :=
  d.write p ((DataFormat.ofPath p).print value)

end HeaderApi
