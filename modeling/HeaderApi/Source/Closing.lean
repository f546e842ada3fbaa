import HeaderApi.Source.Code

/-!
# The closing bracket

The search for the bracket that brings a nesting depth to zero.  Brackets inside literals do not
count; a backslash inside a literal takes the next character with it.
-/

namespace HeaderApi.Source

/-- Where a scan stands with respect to literals. -/
inductive Quoting where
  | outside
  | inside (quote : Char)
  | escaped (quote : Char)
  deriving DecidableEq, Repr, Inhabited

/-- The state after one more character. -/
def Quoting.next (c : Char) : Quoting → Quoting
  | .outside => if isQuote c then .inside c else .outside
  | .inside quote =>
    if c = '\\' then .escaped quote else if c = quote then .outside else .inside quote
  | .escaped quote => .inside quote

/-- The outcome of a search for the closing bracket. -/
inductive Closing where
  /-- The text before the closing bracket and the text after it. -/
  | found (inside after : List Char)
  /-- No bracket closes; the depth at the end of the text. -/
  | missing (depth : Int)
  deriving DecidableEq, Repr, Inhabited

/-- The same outcome for a text with one more character in front. -/
def Closing.cons (c : Char) : Closing → Closing
  | .found inside after => .found (c :: inside) after
  | .missing depth => .missing depth

/-- The position of the closing bracket. -/
def Closing.index? : Closing → Option Nat
  | .found inside _ => some inside.length
  | .missing _ => none

/-- The depth that the search reached. -/
def Closing.depth : Closing → Int
  | .found _ _ => 0
  | .missing depth => depth

/-- A character in front of a search belongs to the text inside of what is found. -/
theorem Closing.cons_eq_found {closing : Closing} {c : Char} {inside after : List Char} :
    closing.cons c = .found inside after ↔
      ∃ tail, inside = c :: tail ∧ closing = .found tail after := by
  cases closing with
  | found tail after' =>
    simp only [Closing.cons, Closing.found.injEq]
    constructor
    · rintro ⟨rfl, rfl⟩
      exact ⟨tail, rfl, rfl, rfl⟩
    · rintro ⟨_, rfl, rfl, rfl⟩
      exact ⟨rfl, rfl⟩
  | missing depth => simp [Closing.cons]

theorem Closing.cons_eq_missing {closing : Closing} {c : Char} {depth : Int} :
    closing.cons c = .missing depth ↔ closing = .missing depth := by
  cases closing <;> simp [Closing.cons]

/-- Characters in front of a search belong to the text inside of what is found. -/
theorem foldr_cons_found (cs inside after : List Char) :
    cs.foldr Closing.cons (.found inside after) = .found (cs ++ inside) after := by
  induction cs with
  | nil => rfl
  | cons c cs ih => rw [List.foldr_cons, ih]; rfl

/-- Characters in front of a search that finds nothing leave the depth as it is. -/
theorem foldr_cons_missing (front : List Char) (depth : Int) :
    front.foldr Closing.cons (.missing depth) = .missing depth := by
  induction front with
  | nil => rfl
  | cons c front ih => rw [List.foldr_cons, ih]; rfl

/-- The search from a given state. -/
def findClosingFrom (opening closing : Char) : Quoting → Int → List Char → Closing
  | _, depth, [] => .missing depth
  | .outside, depth, c :: rest =>
    if isQuote c then (findClosingFrom opening closing (.inside c) depth rest).cons c
    else if c = opening then (findClosingFrom opening closing .outside (depth + 1) rest).cons c
    else if c = closing then
      if depth - 1 = 0 then .found [] rest
      else (findClosingFrom opening closing .outside (depth - 1) rest).cons c
    else (findClosingFrom opening closing .outside depth rest).cons c
  | .inside quote, depth, c :: rest =>
    (findClosingFrom opening closing (Quoting.next c (.inside quote)) depth rest).cons c
  | .escaped quote, depth, c :: rest =>
    (findClosingFrom opening closing (.inside quote) depth rest).cons c

/-- The search for the bracket that brings the given depth to zero. -/
def findClosing (opening closing : Char) (depth : Int) (text : List Char) : Closing :=
  findClosingFrom opening closing .outside depth text

@[simp] theorem findClosing_nil (opening closing : Char) (depth : Int) :
    findClosing opening closing depth [] = .missing depth := by
  simp [findClosing, findClosingFrom]

/-- A found bracket splits the text around it. -/
theorem findClosingFrom_eq_found {opening closing : Char} {q : Quoting} {depth : Int}
    {text inside after : List Char}
    (h : findClosingFrom opening closing q depth text = .found inside after) :
    text = inside ++ closing :: after := by
  induction text generalizing q depth inside with
  | nil => cases q <;> simp [findClosingFrom] at h
  | cons c rest ih =>
    have step : ∀ {q' : Quoting} {d : Int},
        (findClosingFrom opening closing q' d rest).cons c = .found inside after →
        c :: rest = inside ++ closing :: after := by
      intro q' d hc
      cases hr : findClosingFrom opening closing q' d rest with
      | found i a =>
        rw [hr] at hc
        simp only [Closing.cons, Closing.found.injEq] at hc
        obtain ⟨rfl, rfl⟩ := hc
        rw [ih hr, List.cons_append]
      | missing d' => simp [hr, Closing.cons] at hc
    cases q with
    | outside =>
      rw [findClosingFrom] at h
      split at h
      · exact step h
      · split at h
        · exact step h
        · split at h
          · rename_i hcl
            split at h
            · simp only [Closing.found.injEq] at h
              simp [← h.1, ← h.2, hcl]
            · exact step h
          · exact step h
    | inside quote => exact step h
    | escaped quote => exact step h

end HeaderApi.Source
