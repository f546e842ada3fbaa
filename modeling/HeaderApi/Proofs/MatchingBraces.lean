import HeaderApi.Proofs.LexicalScan

/-!
# Matching braces

The brace that matches an opening one is found by the lexical scan: braces in comments and in
literals do not count, and a block comment runs on from line to line.  Passing over a braced block
ends at the line of this brace.
-/

namespace HeaderApi

open Text

/-- A text that is cut at a mark has it. -/
theorem Text.mem_of_cutAt {mark : Char} {cs before rest : List Char}
    (h : cutAt mark cs = some (before, rest)) : mark ∈ cs := by
  rw [(cutAt_eq_some_iff.1 h).1]
  exact List.mem_append_right before List.mem_cons_self

namespace Source

/-! ## On one line -/

/-- What a character adds to the depth of the braces of the code. -/
def Lexing.level (c : Char) (lexing : Lexing) : Int :=
  if lexing.isCode then if c = '\x7b' then 1 else if c = '\x7d' then -1 else 0 else 0

/-- The search for the brace of the code that brings a depth of one to zero. -/
def findBrace : Lexing → Int → List Char → Closing
  | _, depth, [] => .missing depth
  | lexing, depth, c :: rest =>
    if lexing.isCode && c = '\x7d' && depth = 1 then .found [] rest
    else (findBrace (lexing.next c) (depth + lexing.level c) rest).cons c

/-- The texts before and behind the first opening brace of the code. -/
def openingBrace? : Lexing → List Char → Option (List Char × List Char)
  | _, [] => none
  | lexing, c :: rest =>
    if lexing.isCode && c = '\x7b' then some ([], rest)
    else (openingBrace? (lexing.next c) rest).map fun cut => (c :: cut.1, cut.2)

/-- The depth at the end of a text in which no bracket closes. -/
def Closing.depth? : Closing → Option Int
  | .found _ _ => none
  | .missing depth => some depth

variable {lexing : Lexing} {depth : Int} {c : Char} {text inside after front : List Char}

theorem Closing.depth?_cons (c : Char) (closing : Closing) :
    (closing.cons c).depth? = closing.depth? := by
  cases closing <;> rfl

/-- A brace of the code leaves the scan in the code. -/
theorem Lexing.next_brace (hcode : lexing.isCode = true) (hc : c = '\x7b' ∨ c = '\x7d') :
    lexing.next c = .code := by
  cases lexing with
  | code | slash => rcases hc with rfl | rfl <;> rfl
  | _ => cases hcode

/-- Braces of the code are part of the output of the scan. -/
theorem Lexing.output_brace (hcode : lexing.isCode = true) (hc : c = '\x7b' ∨ c = '\x7d')
    (rest : List Char) : lexing.output (c :: rest) = c :: code.output rest := by
  have hnext := next_brace hcode hc
  have hkeeps : lexing.keeps c rest = true := by
    unfold keeps
    rw [hnext]
  rw [output, hcode, hkeeps, hnext]
  rfl

/-- What stands before a brace of the code and what stands behind it are output apart. -/
theorem Lexing.output_append_brace (hcode : (lexing.after front).isCode = true)
    (hc : c = '\x7b' ∨ c = '\x7d') (rest : List Char) :
    lexing.output (front ++ c :: rest) = lexing.output front ++ c :: code.output rest := by
  induction front generalizing lexing with
  | nil => exact output_brace hcode hc rest
  | cons d front ih =>
    have hkeeps : lexing.keeps d (front ++ c :: rest) = lexing.keeps d front := by
      cases front with
      | nil => rcases hc with rfl | rfl <;> simp [keeps]
      | cons e front => rfl
    rw [List.cons_append, output, output, hkeeps, ih hcode]
    split
    · rfl
    · rfl

/-- The first opening brace of the code is the first one in the output of the scan. -/
theorem cutAt_output (h : openingBrace? lexing text = some (front, inside)) :
    ∃ before, cutAt '\x7b' (lexing.output text) = some (before, Lexing.code.output inside) := by
  induction text generalizing lexing front with
  | nil => cases h
  | cons c rest ih =>
    rw [openingBrace?] at h
    split at h
    · rename_i hbrace
      obtain ⟨hcode, hc⟩ := Bool.and_eq_true_iff.1 hbrace
      have hc : c = '\x7b' := of_decide_eq_true hc
      cases h
      exact ⟨[], by rw [Lexing.output_brace hcode (.inl hc), cutAt, if_pos hc]⟩
    · rename_i hbrace
      obtain ⟨⟨front, inside⟩, hlater, heq⟩ := Option.map_eq_some_iff.1 h
      cases heq
      obtain ⟨before, hcut⟩ := ih hlater
      rw [Lexing.output]
      split
      · rename_i hkept
        -- a brace that is kept would have been found
        have hc : c ≠ '\x7b' := by
          rintro rfl
          exact hbrace (by rw [(Bool.and_eq_true_iff.1 hkept).1]; rfl)
        exact ⟨c :: before, by rw [cutAt, if_neg hc, hcut]; rfl⟩
      · exact ⟨before, hcut⟩

/-- The depth of the braces of the code is that of the braces in the output of the scan. -/
theorem braceDepth_output (lexing : Lexing) (depth : Int) (text : List Char) :
    Block.braceDepth depth (lexing.output text) = (findBrace lexing depth text).depth? := by
  induction text generalizing lexing depth with
  | nil => rfl
  | cons c rest ih =>
    rw [findBrace]
    -- only a brace of the code changes the depth, and it is always kept
    by_cases hbrace : lexing.isCode = true ∧ (c = '\x7b' ∨ c = '\x7d')
    · obtain ⟨hcode, hc⟩ := hbrace
      rw [Lexing.output_brace hcode hc, Lexing.next_brace hcode hc, Lexing.level, hcode]
      rcases hc with rfl | rfl
      · simp [Block.braceDepth, Closing.depth?_cons, ih]
      · rw [Block.braceDepth, if_neg (by decide), if_pos rfl]
        by_cases hdepth : depth = 1
        · rw [if_pos (by omega), if_pos (by simp [hdepth])]
          rfl
        · rw [if_neg (by omega), if_neg (by simp [hdepth]), Closing.depth?_cons, ih]
          rfl
    · have hstop : (lexing.isCode && c = '\x7d' && depth = 1) = false := by grind
      have hlevel : lexing.level c = 0 := by grind [Lexing.level]
      rw [hstop, hlevel, Int.add_zero, if_neg Bool.false_ne_true, Closing.depth?_cons, ← ih,
        Lexing.output]
      split
      · rename_i hkept
        have hcode := (Bool.and_eq_true_iff.1 hkept).1
        rw [Block.braceDepth, if_neg fun hc => hbrace ⟨hcode, .inl hc⟩,
          if_neg fun hc => hbrace ⟨hcode, .inr hc⟩]
      · rfl

/-- The search finds the closing brace of the code before which the depth is one, and was not
brought to zero before. -/
theorem findBrace_eq_found_iff :
    findBrace lexing depth text = .found inside after ↔
      text = inside ++ '\x7d' :: after ∧ findBrace lexing depth inside = .missing 1 ∧
        (lexing.after inside).isCode = true := by
  induction text generalizing lexing depth inside with
  | nil => simp [findBrace]
  | cons c rest ih =>
    rw [findBrace]
    by_cases h : (lexing.isCode && c = '\x7d' && depth = 1) = true
    · -- the first character is the brace that is looked for
      rw [if_pos h]
      cases inside with
      | nil =>
        simp only [Bool.and_eq_true, decide_eq_true_eq] at h
        obtain ⟨⟨hcode, rfl⟩, rfl⟩ := h
        simp [findBrace, Lexing.after, hcode]
      | cons d inside =>
        constructor
        · intro hfound
          cases hfound
        · rintro ⟨htext, hmissing, -⟩
          obtain ⟨rfl, -⟩ := List.cons.inj htext
          rw [findBrace, if_pos h] at hmissing
          cases hmissing
    · -- the first character goes to the text in front of the brace
      rw [if_neg h, Closing.cons_eq_found]
      constructor
      · rintro ⟨tail, rfl, hfound⟩
        obtain ⟨rfl, hmissing, hcode⟩ := ih.1 hfound
        refine ⟨rfl, ?_, hcode⟩
        rw [findBrace, if_neg h]
        exact Closing.cons_eq_missing.2 hmissing
      · rintro ⟨htext, hmissing, hcode⟩
        cases inside with
        | nil =>
          obtain ⟨rfl, rfl⟩ := List.cons.inj htext
          have hdepth : depth = 1 := Closing.missing.inj hmissing
          have hcode : lexing.isCode = true := hcode
          exact absurd (by simp [hcode, hdepth]) h
        | cons d inside =>
          obtain ⟨rfl, rfl⟩ := List.cons.inj htext
          rw [findBrace, if_neg h] at hmissing
          exact ⟨inside, rfl, ih.2 ⟨rfl, Closing.cons_eq_missing.1 hmissing, hcode⟩⟩

end Source

namespace Block

open Source

/-! ## Over lines -/

/-- The text up to the brace that closes an open block, line by line, and what follows that brace
on its line.  The first line begins in the given state of the scan. -/
def braced : Lexing → Int → Line → List Line → Option (Enclosed × List Line)
  | lexing, depth, text, [] =>
    match findBrace lexing depth text with
    | .found inside after => some (⟨[inside], after⟩, [])
    | .missing _ => none
  | lexing, depth, text, next :: rest =>
    match findBrace lexing depth text with
    | .found inside after => some (⟨[inside], after⟩, next :: rest)
    | .missing depth =>
      (braced (.start (lexing.after text).inComment) depth next rest).map fun (list, rest) =>
        (⟨text :: list.inside, list.trailer⟩, rest)

variable {lexing : Lexing} {depth depth' : Int} {text next inside after : Line}

/-- A block that ends on its first line needs no other line. -/
theorem braced_of_found (h : findBrace lexing depth text = .found inside after)
    (rest : List Line) : braced lexing depth text rest = some (⟨[inside], after⟩, rest) := by
  cases rest with
  | nil => rw [braced, h]
  | cons next rest => rw [braced, h]

/-- A block that does not end on a line goes on with the next one, at the depth behind the line. -/
theorem braced_of_missing (h : findBrace lexing depth text = .missing depth')
    (rest : List Line) : braced lexing depth text (next :: rest) =
      (braced (.start (lexing.after text).inComment) depth' next rest).map fun (list, rest) =>
        (⟨text :: list.inside, list.trailer⟩, rest) := by
  rw [braced, h]

/-- Some lines are those of a braced text with its closing brace and what follows it. -/
def Enclosed.Covers (list : Enclosed) (lines : List Line) : Prop :=
  ∃ init last, list.inside = init ++ [last] ∧ lines = init ++ [last ++ '\x7d' :: list.trailer]

/-- **Passing over a braced block ends at the line of the brace that closes it.** -/
theorem exists_braced_of_braces {inComment : Bool} {rest passed left : List Line}
    (h : braces depth inComment text rest = some (passed, left)) :
    ∃ list, braced (.start inComment) depth text rest = some (list, left) ∧
      list.Covers (text :: passed) := by
  -- on each line the count of braces is zero where the search ends
  have hdepth : braceDepth depth (strip text inComment).1 =
      (findBrace (.start inComment) depth text).depth? := by
    rw [strip_eq, braceDepth_output]
  induction rest generalizing depth inComment text passed with
  | nil =>
    rw [braces, hdepth] at h
    cases hfind : findBrace (.start inComment) depth text with
    | found inside after =>
      rw [hfind] at h
      cases h
      refine ⟨_, braced_of_found hfind [], [], inside, rfl, ?_⟩
      rw [(findBrace_eq_found_iff.1 hfind).1]
      rfl
    | missing depth' =>
      rw [hfind] at h
      cases h
  | cons next rest ih =>
    rw [braces, hdepth] at h
    cases hfind : findBrace (.start inComment) depth text with
    | found inside after =>
      rw [hfind] at h
      cases h
      refine ⟨_, braced_of_found hfind _, [], inside, rfl, ?_⟩
      rw [(findBrace_eq_found_iff.1 hfind).1]
      rfl
    | missing depth' =>
      rw [hfind] at h
      obtain ⟨⟨later, left'⟩, hlater, heq⟩ := Option.map_eq_some_iff.1 h
      cases heq
      obtain ⟨list, hlist, init, last, hinside, hlines⟩ :=
        ih hlater (by rw [strip_eq, braceDepth_output])
      rw [strip_eq] at hlist
      exact ⟨⟨text :: list.inside, list.trailer⟩, by rw [braced_of_missing hfind, hlist]; rfl,
        text :: init, last, by rw [hinside]; rfl, by rw [hlines]; rfl⟩

/-- The opening brace of a block is part of its code. -/
theorem strip_openingBrace (inside : Line) : strip ('\x7b' :: inside) false =
    ('\x7b' :: (strip inside false).1, (strip inside false).2) := by
  simp [strip, stripFrom, isQuote]

/-- A block whose opening brace is read has a depth of one. -/
theorem braces_open (inside : Line) (rest : List Line) :
    braces 0 false ('\x7b' :: inside) rest = braces 1 false inside rest := by
  have hdepth : braceDepth 0 (strip ('\x7b' :: inside) false).1 =
      braceDepth 1 (strip inside false).1 := by
    rw [strip_openingBrace, braceDepth, if_pos rfl]
    rfl
  cases rest with
  | nil => rw [braces, braces, hdepth]
  | cons next rest => rw [braces, braces, hdepth, strip_openingBrace]

/-- Passing over the block that the first opening brace of a text begins ends at the brace that
matches it, when that brace is one of the code. -/
theorem exists_braced_of_openBraces {here rest passed left : List Line}
    (h : openBraces here text rest = .ok (inside, passed, left)) :
    (∃ front, cutAt '\x7b' text = some (front, inside)) ∧
      ∃ list, braced .code 1 inside rest = some (list, left) ∧ list.Covers (inside :: passed) := by
  rw [openBraces] at h
  split at h
  · cases h
  · rename_i front inside' hcut
    rw [braces_open] at h
    split at h
    · rename_i hbraces
      cases h
      exact ⟨⟨front, hcut⟩, exists_braced_of_braces hbraces⟩
    · cases h

end Block

end HeaderApi
