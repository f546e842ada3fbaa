import HeaderApi.Rules.Basic

/-!
# Type maps

The types of a target are found in maps that are filled while entries are transformed.  Types of
parameters and of results have maps of their own in front of the common one.
-/

namespace HeaderApi

/-- A type rule that does not fit the entry for which it is given. -/
structure Mismatch where
  name : String
  declared : String
  detected : String
  deriving DecidableEq, Repr, Inhabited

/-- The text of a mismatch. -/
def Mismatch.message (m : Mismatch) : String :=
  m.detected ++ " " ++ m.name ++ " can not be " ++ m.declared

/-- The type maps of a run and the mismatches that were found. -/
structure Context where
  typeMap : Keyed String := []
  paramTypeMap : Keyed String := []
  returnTypeMap : Keyed String := []
  warnings : List Mismatch := []
  deriving DecidableEq, Repr, Inhabited

namespace Context

/-- The maps that rules start with. -/
def ofRules (rules : Rules) : Context where
  typeMap := rules.typeMap.getD []
  paramTypeMap := rules.paramTypeMap.getD []
  returnTypeMap := rules.returnTypeMap.getD []

/-- The target of a type. -/
def mapType (c : Context) (type : String) : String := (Keyed.find? c.typeMap type).getD type

/-- The target of the type of a parameter. -/
def mapParamType (c : Context) (type : String) : String :=
  (Keyed.find? c.paramTypeMap type).getD (c.mapType type)

/-- The target of the type of a result. -/
def mapReturnType (c : Context) (type : String) : String :=
  (Keyed.find? c.returnTypeMap type).getD (c.mapType type)

/-- The forms of a type under which an alias is found. -/
def aliasForms (type : String) : List String :=
  [type, type ++ " *", "const " ++ type, "const " ++ type ++ " *"]

/-- Maps a source type to an alias, plain and as a constant or a pointer. -/
def registerAlias (c : Context) (source target : String) : Context :=
  { c with typeMap := Keyed.insertAll c.typeMap ((aliasForms source).zip (aliasForms target)) }

/-- Maps a source type to a resource: a reference in parameters and the resource in results. -/
def registerResource (c : Context) (source name : String) : Context :=
  { c with
    paramTypeMap := Keyed.insertAll c.paramTypeMap
      [(source, name ++ "Ref"), (source ++ " *", name ++ "Ref")]
    returnTypeMap := Keyed.insertAll c.returnTypeMap [(source, name), (source ++ " *", name)] }

/-- Takes in a mismatch. -/
def warn (c : Context) (m : Mismatch) : Context := { c with warnings := c.warnings ++ [m] }

end Context

end HeaderApi
