/-
# Settings

A field of a record may be left out, set to null, or given a value.  The difference between the
first two shows when a record is written back: only fields that are set are written.
-/

namespace HeaderApi

/-- The state of a field that may be null. -/
inductive Setting (α : Type _) where
  | unset
  | null
  | given (value : α)
  deriving DecidableEq, Repr, Inhabited

namespace Setting

variable {α β : Type _}

/-- The value that a field holds. -/
def get? : Setting α → Option α
  | .given value => some value
  | _ => none

/-- A field that is given or left out. -/
def ofOption : Option α → Setting α
  | some value => .given value
  | none => .unset

/-- The field with its value changed. -/
def map (f : α → β) : Setting α → Setting β
  | .unset => .unset
  | .null => .null
  | .given value => .given (f value)

/-- The field when it is set, otherwise another content. -/
def overriding (setting : Setting α) (other : Option α) : Option α :=
  match setting with
  | .unset => other
  | .null => none
  | .given value => some value

@[simp] theorem get?_given (value : α) : (Setting.given value).get? = some value := rfl

@[simp] theorem get?_null : (Setting.null : Setting α).get? = none := rfl

@[simp] theorem get?_unset : (Setting.unset : Setting α).get? = none := rfl

@[simp] theorem get?_ofOption (content : Option α) : (ofOption content).get? = content := by
  cases content <;> rfl

end Setting

end HeaderApi
