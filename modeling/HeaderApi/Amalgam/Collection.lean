import HeaderApi.Amalgam.Basic

/-!
# Collecting parts

Starting from a root, quoted includes are followed breadth first, each header once.
-/

namespace HeaderApi

open Text

/-- The parts of an amalgamation and the system includes in front of them. -/
structure Collection where
  includes : List String := []
  parts : List Part := []
  deriving DecidableEq, Repr, Inhabited

/-- How the lines of a header are found. -/
abbrev Resolver := String → Except FileError (List Line)

namespace Collection

/-- The parts from a queue of names on, given the names already seen.  The fuel bounds the number
of headers that are read. -/
def collectFrom (resolve : Resolver) (options : AmalgamOptions) :
    Nat → List String → List String → Logged AmalgamError (List Part)
  | 0, _, _ => pure []
  | fuel + 1, seen, queue =>
    match queue.dropWhile fun name => seen.contains name with
    | [] => pure []
    | name :: queue => do
      Logged.write .info ("Reading " ++ name)
      let lines ← Logged.ofExcept ((resolve name).mapError .unread)
      let part ← Part.read options name lines
      let parts ← collectFrom resolve options fuel (name :: seen) (queue ++ part.deps)
      return part :: parts

/-- The system includes of the unconditional parts, sorted, and the master include. -/
def includesOf (options : AmalgamOptions) (parts : List Part) : List String :=
  let names := (parts.filter (!·.conditional)).flatMap Part.includes
  insertTexts names [] ++ if options.masterInclude = "" then [] else [options.masterInclude]

/-- The parts of a root and of everything that it includes.  The fuel bounds the number of
headers. -/
def collect (resolve : Resolver) (options : AmalgamOptions) (fuel : Nat) (root : String) :
    Logged AmalgamError Collection := do
  let parts ← collectFrom resolve options fuel [] [root]
  return ⟨includesOf options parts, parts⟩

/-! ## Headers in memory -/

/-- The resolver of a table of headers. -/
def tableResolver (files : Keyed (List Line)) : Resolver := fun name =>
  match Keyed.find? files name with
  | some lines => .ok lines
  | none => .error (.missing name)

/-- The parts of a root and of everything that it includes, from a table of headers. -/
def ofTable (files : Keyed (List Line)) (options : AmalgamOptions) (root : String) :
    Logged AmalgamError Collection :=
  collect (tableResolver files) options (files.length + 1) root

end Collection

end HeaderApi
