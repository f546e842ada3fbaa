import HeaderApi.Entry.Basic

/-!
# Headers and interfaces

A header is the model of one file; an interface is a set of headers by name.
-/

namespace HeaderApi

/-- The model of one header file. -/
structure Header where
  name : String
  doc : String := ""
  entries : Entries := []
  /-- System includes. -/
  includes : Option (List String) := none
  /-- Quoted includes. -/
  localIncludes : Option (List String) := none
  docBegin : Option Int := none
  docEnd : Option Int := none
  entriesBegin : Option Int := none
  entriesEnd : Option Int := none
  deriving Inhabited

/-- A set of headers, each under the name of its file. -/
structure Api where
  files : Keyed Header := []
  deriving Inhabited

end HeaderApi
