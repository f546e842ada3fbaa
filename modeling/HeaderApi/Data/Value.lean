import HeaderApi.Data.Decimal
import HeaderApi.Keyed

/-!
# Data values

What a data file holds: null, truth values, numbers, texts, lists and tables.
-/

namespace HeaderApi

/-- One value of a data file. -/
inductive Value where
  | null
  | bool (b : Bool)
  | int (n : Int)
  | decimal (d : Decimal)
  | text (s : String)
  /-- A scalar of a kind that no record asks for, such as a date, as it was written. -/
  | other (s : String)
  | list (items : List Value)
  /-- A table whose keys are texts, in order of first occurrence. -/
  | table (fields : List (String × Value))
  /-- A table with a key that is not a text. -/
  | mixed (pairs : List (Value × Value))
  deriving Inhabited

namespace Value

/-- The text-keyed fields among pairs. -/
def textFields (pairs : List (Value × Value)) : Keyed Value :=
  Keyed.ofPairs (pairs.filterMap fun
    | (.text key, value) => some (key, value)
    | _ => none)

/-- The fields that a record of fixed names can find in a table. -/
def fields? : Value → Option (Keyed Value)
  | .table fields => some fields
  | .mixed pairs => some (textFields pairs)
  | _ => none

/-- The fields of a table all of whose keys are texts. -/
def table? : Value → Option (Keyed Value)
  | .table fields => some fields
  | _ => none

/-- The table of some pairs: the last value of each text at its first place.  With a key that is
not a text, the pairs are kept as they are. -/
def ofPairs (pairs : List (Value × Value)) : Value :=
  if pairs.all (fun pair => match pair.1 with | .text _ => true | _ => false) then
    .table (textFields pairs)
  else .mixed pairs

/-- The text that stands for a scalar as a key. -/
def keyName : Value → String
  | .null => "None"
  | .bool true => "true"
  | .bool false => "false"
  | .int n => String.ofList (Decimal.intText n)
  | .decimal d => String.ofList d.toText
  | .text s | .other s => s
  | _ => ""

/-- Whether a value counts as nothing: null, false, zero, or empty. -/
def isNothing : Value → Bool
  | .null | .bool false | .text "" | .list [] | .table [] | .mixed [] => true
  | .int n => n = 0
  | .decimal d => d.mantissa = 0
  | _ => false

/-- The items of a list. -/
def list? : Value → Option (List Value)
  | .list items => some items
  | _ => none

/-- The text of a text value. -/
def text? : Value → Option String
  | .text s => some s
  | _ => none

end Value

end HeaderApi
