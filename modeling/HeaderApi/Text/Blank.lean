/-
# Blanks

The white space characters, trimming, and the blank-separated words of a text.
-/

namespace HeaderApi.Text

/-- White space: the white space property of every script and the four information
separators `U+001C` to `U+001F`. -/
def isBlank (c : Char) : Bool :=
  let n := c.toNat
  (9 ≤ n && n ≤ 13) || (28 ≤ n && n ≤ 32) || n == 0x85 || n == 0xA0 || n == 0x1680 ||
    (0x2000 ≤ n && n ≤ 0x200A) || n == 0x2028 || n == 0x2029 || n == 0x202F || n == 0x205F ||
    n == 0x3000

/-! ## Trimming -/

/-- Drops the longest run of characters at the end that satisfy `p`. -/
def dropEndWhile (p : Char → Bool) : List Char → List Char
  | [] => []
  | c :: rest =>
    match dropEndWhile p rest with
    | [] => if p c then [] else [c]
    | kept => c :: kept

@[simp] theorem dropEndWhile_nil (p : Char → Bool) : dropEndWhile p [] = [] := rfl

/-- What is dropped at the end satisfies `p`. -/
theorem dropEndWhile_append (p : Char → Bool) (cs : List Char) :
    ∃ tail, cs = dropEndWhile p cs ++ tail ∧ ∀ c ∈ tail, p c = true := by
  induction cs with
  | nil => exact ⟨[], rfl, by simp⟩
  | cons c rest ih =>
    obtain ⟨tail, h, ht⟩ := ih
    rw [dropEndWhile]
    cases hd : dropEndWhile p rest with
    | nil =>
      rw [hd, List.nil_append] at h
      by_cases hc : p c = true
      · exact ⟨c :: rest, by simp [hc], by simpa [hc, h] using ht⟩
      · exact ⟨rest, by simp [hc], by simpa [h] using ht⟩
    | cons d kept =>
      rw [hd] at h
      exact ⟨tail, by simp [h], ht⟩

/-- Drops the blanks at the beginning. -/
def trimStart (cs : List Char) : List Char := cs.dropWhile isBlank

/-- Drops the blanks at the end. -/
def trimEnd (cs : List Char) : List Char := dropEndWhile isBlank cs

/-- Drops the blanks at both ends. -/
def trim (cs : List Char) : List Char := trimEnd (trimStart cs)

/-- What follows the blanks at the beginning, when there is at least one. -/
def afterBlanks? : List Char → Option (List Char)
  | [] => none
  | c :: rest => if isBlank c then some (trimStart rest) else none

/-- A text without any visible character. -/
def allBlank (cs : List Char) : Bool := cs.all isBlank

@[simp] theorem trim_nil : trim [] = [] := rfl

@[simp] theorem allBlank_nil : allBlank [] = true := rfl

@[simp] theorem allBlank_cons (c : Char) (cs : List Char) :
    allBlank (c :: cs) = (isBlank c && allBlank cs) := rfl

/-- The number of blanks at the beginning. -/
def indentation (cs : List Char) : Nat := (cs.takeWhile isBlank).length

/-! ## Words -/

/-- The pieces between blanks, empty ones included. -/
def splitBlanks : List Char → List (List Char)
  | [] => [[]]
  | c :: rest =>
    if isBlank c then [] :: splitBlanks rest
    else
      match splitBlanks rest with
      | [] => [[c]]
      | piece :: pieces => (c :: piece) :: pieces

@[simp] theorem splitBlanks_nil : splitBlanks [] = [[]] := rfl

/-- There is always a piece, if only an empty one. -/
theorem splitBlanks_ne_nil (cs : List Char) : splitBlanks cs ≠ [] := by
  cases cs with
  | nil => simp
  | cons c rest =>
    rw [splitBlanks]
    split
    · simp
    · split <;> simp

/-- The maximal runs of characters that are not blank. -/
def words (cs : List Char) : List (List Char) := (splitBlanks cs).filter (· ≠ [])

@[simp] theorem words_nil : words [] = [] := rfl

theorem words_cons_of_isBlank {c : Char} (cs : List Char) (h : isBlank c = true) :
    words (c :: cs) = words cs := by
  simp [words, splitBlanks, h]

/-- The words of a text, one space apart. -/
def collapse (cs : List Char) : List Char := [' '].intercalate (words cs)

@[simp] theorem collapse_nil : collapse [] = [] := rfl

end HeaderApi.Text
