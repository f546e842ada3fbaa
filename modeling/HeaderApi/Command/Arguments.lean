import HeaderApi.Text.Scan

/-!
# Command-line arguments

Arguments are options and positional words.  An option with a value takes what follows its equals
sign, or the next argument whatever it looks like; one-letter flags can be joined.
-/

namespace HeaderApi

open Text

/-- An option that a command knows. -/
structure OptionSpec where
  /-- The name by which its value is found, which is also its long form. -/
  name : String
  short : Option Char := none
  takesValue : Bool := true
  deriving DecidableEq, Repr, Inhabited

/-- The options and positional words of a command line, in order. -/
structure Arguments where
  given : List (String × String) := []
  words : List String := []
  deriving DecidableEq, Repr, Inhabited

namespace Arguments

/-- The last value that was given for an option. -/
def value? (args : Arguments) (name : String) : Option String :=
  ((args.given.filter (·.1 = name)).map Prod.snd).getLast?

/-- All values that were given for an option. -/
def values (args : Arguments) (name : String) : List String :=
  (args.given.filter (·.1 = name)).map Prod.snd

/-- Whether a flag was given. -/
def has (args : Arguments) (name : String) : Bool := args.given.any (·.1 = name)

/-- Puts options in front. -/
def withGiven (given : List (String × String)) (args : Arguments) : Arguments :=
  { args with given := given ++ args.given }

/-- Puts a positional word in front. -/
def withWord (word : String) (args : Arguments) : Arguments :=
  { args with words := word :: args.words }

/-- What one argument says: options with their values, and an option that waits for the next
argument. -/
structure Reading where
  given : List (String × String) := []
  waiting : Option String := none
  deriving DecidableEq, Repr, Inhabited

/-- The option with a long name. -/
def longOption (specs : List OptionSpec) (name : String) (value : Option String) :
    Option Reading :=
  match specs.find? (·.name = name), value with
  | none, _ => none
  | some spec, some v => if spec.takesValue then some ⟨[(spec.name, v)], none⟩ else none
  | some spec, none =>
    if spec.takesValue then some ⟨[], some spec.name⟩ else some ⟨[(spec.name, "")], none⟩

/-- The options that letters name; the first one that takes a value takes the rest of the
letters. -/
def shortOptions (specs : List OptionSpec) : List Char → Option Reading
  | [] => some {}
  | c :: rest =>
    match specs.find? (·.short = some c) with
    | none => none
    | some spec =>
      if spec.takesValue then
        if rest = [] then some ⟨[], some spec.name⟩
        else some ⟨[(spec.name, String.ofList rest)], none⟩
      else (shortOptions specs rest).map fun r => { r with given := (spec.name, "") :: r.given }

/-- What an argument that begins with a dash says. -/
def option (specs : List OptionSpec) (arg : List Char) : Option Reading :=
  match arg with
  | '-' :: '-' :: body =>
    match cutAt '=' body with
    | some (name, value) => longOption specs (String.ofList name) (some (String.ofList value))
    | none => longOption specs (String.ofList body) none
  | '-' :: letters => shortOptions specs letters
  | _ => none

/-- Whether an argument is an option. -/
def isOption : List Char → Bool
  | '-' :: _ :: _ => true
  | _ => false

/-- Reads arguments.  After two dashes everything is a word.  Unless options and words are mixed,
the same holds from the first word on. -/
def read (specs : List OptionSpec) (mixed : Bool) : List String → Option Arguments
  | [] => some {}
  | arg :: rest =>
    if arg = "--" then some ⟨[], rest⟩
    else if !isOption arg.toList then
      if mixed then (read specs mixed rest).map (withWord arg) else some ⟨[], arg :: rest⟩
    else
      match option specs arg.toList with
      | none => none
      | some ⟨given, none⟩ => (read specs mixed rest).map (withGiven given)
      | some ⟨given, some name⟩ =>
        match rest with
        | [] => none
        | value :: rest => (read specs mixed rest).map (withGiven (given ++ [(name, value)]))

@[simp] theorem read_nil (specs : List OptionSpec) (mixed : Bool) :
    read specs mixed [] = some {} := rfl

end Arguments

end HeaderApi
