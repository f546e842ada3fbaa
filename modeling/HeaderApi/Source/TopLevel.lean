import HeaderApi.Source.Code

/-!
# Splitting at the top level

A text is split at the separators that stand outside of brackets and quotes.
-/

namespace HeaderApi.Source

/-- Brackets that open a level. -/
def isOpening (c : Char) : Bool := c = '(' || c = '<' || c = '[' || c = '{'

/-- Brackets that close a level. -/
def isClosing (c : Char) : Bool := c = ')' || c = '>' || c = ']' || c = '}'

/-- Where the scan for separators stands: the open quote, if any, and the bracket depth, which
unbalanced text may take below zero. -/
structure Nesting where
  quote : Option Char
  depth : Int
  deriving DecidableEq, Repr, Inhabited

/-- Outside quotes and brackets. -/
def Nesting.top : Nesting := ⟨none, 0⟩

/-- The state after one more character. -/
def Nesting.next (c : Char) (state : Nesting) : Nesting :=
  match state.quote with
  | some quote => if c = quote then { state with quote := none } else state
  | none =>
    if isQuote c then { state with quote := some c }
    else if isOpening c then { state with depth := state.depth + 1 }
    else if isClosing c then { state with depth := state.depth - 1 }
    else state

/-- Whether a character separates two parts in the given state. -/
def Nesting.separates (separator c : Char) (state : Nesting) : Bool :=
  state = .top && c = separator && !isQuote c && !isOpening c && !isClosing c

/-- Puts a character in front of the first part. -/
def consPart (c : Char) : List (List Char) → List (List Char)
  | [] => [[c]]
  | part :: parts => (c :: part) :: parts

/-- The parts of a text that is read from the given state. -/
def splitFrom (separator : Char) : Nesting → List Char → List (List Char)
  | _, [] => [[]]
  | state, c :: rest =>
    if state.separates separator c then [] :: splitFrom separator state rest
    else consPart c (splitFrom separator (state.next c) rest)

/-- The parts between the separators outside of brackets and quotes. -/
def splitTopLevel (separator : Char) (text : List Char) : List (List Char) :=
  splitFrom separator .top text

/-- There is always a part, if only an empty one. -/
theorem splitFrom_ne_nil (separator : Char) (state : Nesting) (text : List Char) :
    splitFrom separator state text ≠ [] := by
  cases text with
  | nil => simp [splitFrom]
  | cons c rest =>
    rw [splitFrom]
    split
    · simp
    · cases splitFrom separator (state.next c) rest <;> simp [consPart]

/-- The parts joined with the separator give the text back. -/
theorem intercalate_splitFrom (separator : Char) (state : Nesting) (text : List Char) :
    [separator].intercalate (splitFrom separator state text) = text := by
  induction text generalizing state with
  | nil => simp [splitFrom, List.intercalate]
  | cons c rest ih =>
    rw [splitFrom]
    split
    · rename_i h
      have hc : c = separator := by
        simp only [Nesting.separates, Bool.and_eq_true, decide_eq_true_eq] at h
        exact h.1.1.1.2
      cases hs : splitFrom separator state rest with
      | nil => exact absurd hs (splitFrom_ne_nil _ _ _)
      | cons p ps =>
        have := ih state
        rw [hs] at this
        rw [List.intercalate, List.intersperse_cons_cons, List.flatten_cons, List.flatten_cons,
          ← List.intercalate, this, hc]
        rfl
    · cases hs : splitFrom separator (state.next c) rest with
      | nil => exact absurd hs (splitFrom_ne_nil _ _ _)
      | cons p ps =>
        have := ih (state.next c)
        rw [hs] at this
        rw [consPart, ← this]
        cases ps <;> simp [List.intercalate]

end HeaderApi.Source
