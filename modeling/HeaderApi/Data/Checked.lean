import HeaderApi.Data.Setting
import HeaderApi.Data.Value
import HeaderApi.Text.Blank

/-!
# Checking data against a shape

A value of a data file is checked against the shape of a record.  All parts are checked, so that
the report of a failure covers all of them.
-/

namespace HeaderApi

/-- A value that does not have the shape asked for.  Names that map to an empty list of overloads
are reported; any other misfit is not described. -/
structure Invalid where
  emptyOverloads : List String := []
  deriving DecidableEq, Repr, Inhabited

/-- The report of a failure, if there is anything to say. -/
def Invalid.message? (e : Invalid) : Option String :=
  if e.emptyOverloads = [] then none
  else some (String.intercalate "; " (e.emptyOverloads.map fun name =>
    "Value error, Entry " ++ name ++ " maps to an empty overload list"))

/-- The outcome of a check. -/
inductive Checked (α : Type) where
  | valid (value : α)
  | invalid (e : Invalid)
  deriving Inhabited

namespace Checked

variable {α β : Type}

/-- Applies a checked function to a checked value; the reports of two failures are joined. -/
protected def seq (f : Checked (α → β)) (x : Checked α) : Checked β :=
  match f, x with
  | .valid f, .valid a => .valid (f a)
  | .invalid e, .valid _ => .invalid e
  | .valid _, .invalid e => .invalid e
  | .invalid e, .invalid e' => .invalid ⟨e.emptyOverloads ++ e'.emptyOverloads⟩

instance : Applicative Checked where
  pure := .valid
  seq f x := Checked.seq f (x ())

/-- A failure without a description. -/
def misfit : Checked α := .invalid {}

/-- Goes on with a valid value. -/
def andThen (x : Checked α) (f : α → Checked β) : Checked β :=
  match x with
  | .valid a => f a
  | .invalid e => .invalid e

/-- The outcome as an exception. -/
def toExcept : Checked α → Except Invalid α
  | .valid a => .ok a
  | .invalid e => .error e

/-- The value found, or a failure when there is none. -/
def ofOption : Option α → Checked α
  | some a => .valid a
  | none => misfit

/-- Checks all items of a list. -/
def list (check : α → Checked β) : List α → Checked (List β)
  | [] => .valid []
  | a :: rest => List.cons <$> check a <*> list check rest

@[simp] theorem map_valid (f : α → β) (a : α) : (f <$> Checked.valid a) = .valid (f a) := rfl

@[simp] theorem list_nil (check : α → Checked β) : list check [] = .valid [] := rfl

/-- A list whose items are valid is valid. -/
theorem list_eq_valid {check : α → Checked β} {f : α → β} (items : List α)
    (h : ∀ a ∈ items, check a = .valid (f a)) : list check items = .valid (items.map f) := by
  induction items with
  | nil => rfl
  | cons a rest ih =>
    rw [list, h a (by simp), ih (fun b hb => h b (by simp [hb]))]
    rfl

end Checked

/-! ## Scalars -/

namespace Value

open Text

/-- A text. -/
def checkText : Value → Checked String
  | .text s => .valid s
  | _ => .misfit

/-- The words for true. -/
def trueWords : List String := ["1", "on", "t", "true", "y", "yes"]

/-- The words for false. -/
def falseWords : List String := ["0", "off", "f", "false", "n", "no"]

/-- A truth value: also the numbers zero and one and a few words in either case. -/
def checkBool : Value → Checked Bool
  | .bool b => .valid b
  | .int n => if n = 0 then .valid false else if n = 1 then .valid true else .misfit
  | .decimal d =>
    match d.toInt? with
    | some n => if n = 0 then .valid false else if n = 1 then .valid true else .misfit
    | none => .misfit
  | .text s =>
    let word := s.map Char.toLower
    if trueWords.contains word then .valid true
    else if falseWords.contains word then .valid false
    else .misfit
  | _ => .misfit

/-- The number that digits write; single underscores may stand between digits. -/
def readDigits : Option Nat → List Char → Option Nat
  | held, [] => held
  | held, c :: rest =>
    if '0' ≤ c && c ≤ '9' then
      readDigits (some (held.getD 0 * 10 + (c.toNat - '0'.toNat))) rest
    else if c = '_' && held.isSome && rest.head?.any (fun d => d != '_') then
      readDigits held rest
    else if c = '.' && held.isSome && rest ≠ [] && rest.all (· = '0') then held
    else none

/-- The integer that a text writes. -/
def readInt? (cs : List Char) : Option Int :=
  match trim cs with
  | '-' :: ds => (readDigits none ds).map fun n => -(n : Int)
  | '+' :: ds => (readDigits none ds).map Int.ofNat
  | ds => (readDigits none ds).map Int.ofNat

/-- An integer: also a decimal without a fraction, a truth value, and the text of an integer. -/
def checkInt : Value → Checked Int
  | .int n => .valid n
  | .bool b => .valid (if b then 1 else 0)
  | .decimal d => .ofOption d.toInt?
  | .text s => .ofOption (readInt? s.toList)
  | _ => .misfit

/-! ## Containers -/

/-- A list of checked items. -/
def checkList {α : Type} (check : Value → Checked α) : Value → Checked (List α)
  | .list items => Checked.list check items
  | _ => .misfit

/-- A table of checked values. -/
def checkTable {α : Type} (check : Value → Checked α) : Value → Checked (Keyed α)
  | .table fields => Checked.list (fun pair => (pair.1, ·) <$> check pair.2) fields
  | _ => .misfit

/-- The fields of a record. -/
def checkRecord {α : Type} (check : Keyed Value → Checked α) (value : Value) : Checked α :=
  match value.fields? with
  | some fields => check fields
  | none => .misfit

end Value

/-! ## Fields -/

namespace Fields

variable {α : Type}

/-- The value of the first of some names that is present. -/
def find? (fields : Keyed Value) (names : List String) : Option Value :=
  names.findSome? fun name => Keyed.find? fields name

/-- A field that must be present. -/
def required (check : Value → Checked α) (fields : Keyed Value) (names : List String) :
    Checked α :=
  match find? fields names with
  | some value => check value
  | none => .misfit

/-- A field that may be left out. -/
def optional (check : Value → Checked α) (fields : Keyed Value) (names : List String) :
    Checked (Option α) :=
  match find? fields names with
  | some value => some <$> check value
  | none => .valid none

/-- A field that may be left out or null. -/
def setting (check : Value → Checked α) (fields : Keyed Value) (names : List String) :
    Checked (Setting α) :=
  match find? fields names with
  | some .null => .valid .null
  | some value => .given <$> check value
  | none => .valid .unset

/-! ## Writing fields -/

/-- A field to be written: its name, its value when it is set, and the value that stands for a
field that is not set. -/
structure Written where
  name : String
  value : Option Value
  default : Value

/-- Which fields are written. -/
inductive Form where
  /-- Only those that are set. -/
  | saved
  /-- All of them. -/
  | full
  deriving DecidableEq, Repr, Inhabited

/-- The table of some fields. -/
def table (form : Form) (fields : List Written) : Value :=
  .table (fields.filterMap fun field =>
    match field.value with
    | some value => some (field.name, value)
    | none => if form = .full then some (field.name, field.default) else none)

/-- A field that is always set. -/
def Written.always (name : String) (value : Value) : Written := ⟨name, some value, .null⟩

/-- A field with a default. -/
def Written.defaulted (write : α → Value) (name : String) (content : Option α) (default : Value) :
    Written :=
  ⟨name, content.map write, default⟩

/-- A field that may be null. -/
def Written.nullable (write : α → Value) (name : String) (content : Setting α) : Written :=
  match content with
  | .unset => ⟨name, none, .null⟩
  | .null => ⟨name, some .null, .null⟩
  | .given value => ⟨name, some (write value), .null⟩

end Fields

end HeaderApi
