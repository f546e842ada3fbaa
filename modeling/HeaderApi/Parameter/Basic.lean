/-
# Parameters

A parameter of a function, callback, macro or template: a name with a type and a default value,
or a fragment of source text that has no name of its own.
-/

namespace HeaderApi

/-- One parameter. -/
inductive Parameter where
  /-- A named parameter; macros leave the type empty. -/
  | named (name type : String) (default : Option String)
  /-- Source text without a name: an unnamed parameter, a function pointer, an ellipsis. -/
  | raw (text : String)
  deriving DecidableEq, Repr, Inhabited

end HeaderApi
