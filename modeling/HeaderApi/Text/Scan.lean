/-
# Reading from the front of a text

Small total readers on characters: a fixed opening, the part before a first mark, and searches
for a fixed piece of text.
-/

namespace HeaderApi.Text

/-! ## Fixed openings -/

/-- What follows a fixed opening, if the text begins with it. -/
def after? : List Char → List Char → Option (List Char)
  | [], cs => some cs
  | _ :: _, [] => none
  | p :: ps, c :: cs => if p = c then after? ps cs else none

@[simp] theorem after?_nil (cs : List Char) : after? [] cs = some cs := by
  cases cs <;> rfl

/-- `after?` succeeds exactly on the texts that begin with the opening. -/
theorem after?_eq_some_iff {ps cs rest : List Char} :
    after? ps cs = some rest ↔ cs = ps ++ rest := by
  induction ps generalizing cs with
  | nil => simp [eq_comm]
  | cons p ps ih =>
    cases cs with
    | nil => simp [after?]
    | cons c cs =>
      by_cases h : p = c
      · simp [after?, h, ih]
      · simp [after?, h, Ne.symm h]

/-- Whether the text begins with the given opening. -/
def startsWith (opening cs : List Char) : Bool := (after? opening cs).isSome

/-- Whether the text begins with one of the given openings. -/
def startsWithAny (openings : List (List Char)) (cs : List Char) : Bool :=
  openings.any fun opening => startsWith opening cs

/-- Whether the text ends with the given closing. -/
def endsWith (closing cs : List Char) : Bool := startsWith closing.reverse cs.reverse

@[simp] theorem startsWith_nil (cs : List Char) : startsWith [] cs = true := by
  simp [startsWith]

theorem startsWith_iff {opening cs : List Char} :
    startsWith opening cs = true ↔ ∃ rest, cs = opening ++ rest := by
  simp [startsWith, Option.isSome_iff_exists, after?_eq_some_iff]

/-! ## Searching -/

/-- The parts before and after the first occurrence of a character. -/
def cutAt (mark : Char) : List Char → Option (List Char × List Char)
  | [] => none
  | c :: rest =>
    if c = mark then some ([], rest)
    else (cutAt mark rest).map fun cut => (c :: cut.1, cut.2)

/-- The cut lies at the first occurrence: the part before it is free of the mark. -/
theorem cutAt_eq_some_iff {mark : Char} {cs before rest : List Char} :
    cutAt mark cs = some (before, rest) ↔ cs = before ++ mark :: rest ∧ mark ∉ before := by
  induction cs generalizing before with
  | nil => simp [cutAt]
  | cons c cs ih =>
    by_cases h : c = mark
    · subst h
      constructor
      · intro hc
        simp only [cutAt, ↓reduceIte, Option.some.injEq, Prod.mk.injEq] at hc
        simp [← hc.1, ← hc.2]
      · rintro ⟨hc, hm⟩
        cases before with
        | nil => simpa [cutAt] using hc
        | cons b bs =>
          simp only [List.cons_append, List.cons.injEq] at hc
          exact absurd (by simp [hc.1]) hm
    · simp only [cutAt, h, ↓reduceIte, Option.map_eq_some_iff, Prod.mk.injEq, Prod.exists]
      constructor
      · rintro ⟨b, r, hb, rfl, rfl⟩
        obtain ⟨rfl, hm⟩ := ih.1 hb
        exact ⟨rfl, by simp [hm, Ne.symm h]⟩
      · rintro ⟨hc, hm⟩
        cases before with
        | nil =>
          simp only [List.nil_append, List.cons.injEq] at hc
          exact absurd hc.1 h
        | cons b bs =>
          simp only [List.cons_append, List.cons.injEq] at hc
          simp only [List.mem_cons, not_or] at hm
          exact ⟨bs, rest, ih.2 ⟨hc.2, hm.2⟩, by rw [hc.1], rfl⟩

/-- The parts before and after the last occurrence of a character. -/
def cutAtLast (mark : Char) (cs : List Char) : Option (List Char × List Char) :=
  (cutAt mark cs.reverse).map fun cut => (cut.2.reverse, cut.1.reverse)

/-- The pieces between the occurrences of a character. -/
def pieces (mark : Char) : List Char → List (List Char)
  | [] => [[]]
  | c :: rest =>
    if c = mark then [] :: pieces mark rest
    else
      match pieces mark rest with
      | [] => [[c]]
      | piece :: others => (c :: piece) :: others

@[simp] theorem pieces_nil (mark : Char) : pieces mark [] = [[]] := rfl

/-- The part before the first occurrence of a piece of text. -/
def before? (piece : List Char) : List Char → Option (List Char)
  | [] => if piece = [] then some [] else none
  | c :: rest =>
    if startsWith piece (c :: rest) then some []
    else (before? piece rest).map (c :: ·)

/-- The part before the first occurrence of a piece of text, on one line. -/
def beforeOnLine? (piece : List Char) : List Char → Option (List Char × List Char)
  | [] => if piece = [] then some ([], []) else none
  | c :: rest =>
    match after? piece (c :: rest) with
    | some tail => some ([], tail)
    | none =>
      if c = '\n' then none
      else (beforeOnLine? piece rest).map fun cut => (c :: cut.1, cut.2)

end HeaderApi.Text
