import HeaderApi.Text.Blank
import HeaderApi.Text.Lines
import HeaderApi.Text.Scan
import Mathlib.Data.Bool.AllAny
import Mathlib.Data.List.Basic
import Mathlib.Data.List.Infix
import Mathlib.Data.List.TakeWhile

/-!
# Texts in parts

What trimming, searching, and splitting into lines or words give for a text that is put together
from parts.
-/

namespace HeaderApi.Text

variable {p : Char → Bool} {cs tail : List Char}

/-! ## Runs -/

/-- A run ends before the first character that does not belong to it. -/
theorem takeWhile_append_cons {c : Char} (h : ∀ d ∈ cs, p d = true) (hc : p c = false) :
    (cs ++ c :: tail).takeWhile p = cs := by
  rw [List.takeWhile_append_of_pos h, List.takeWhile_cons_of_neg (by simp [hc]), List.append_nil]

/-- A run that goes no further than its text ends with it. -/
theorem takeWhile_append_of_head (h : ∀ d ∈ cs, p d = true)
    (htail : ∀ c ∈ tail.head?, p c = false) :
    (cs ++ tail).takeWhile p = cs := by
  cases tail with
  | nil => rw [List.append_nil, List.takeWhile_eq_self_iff.2 h]
  | cons c tail => exact takeWhile_append_cons h (htail c rfl)

theorem dropWhile_append_cons {c : Char} (h : ∀ d ∈ cs, p d = true) (hc : p c = false) :
    (cs ++ c :: tail).dropWhile p = c :: tail := by
  rw [List.dropWhile_append_of_pos h, List.dropWhile_cons_of_neg (by simp [hc])]

/-- What is dropped ends in front of a text that begins with a character that is to stay. -/
theorem dropWhile_append_of_head (h : ∀ d ∈ cs, p d = true)
    (htail : ∀ c ∈ tail.head?, p c = false) :
    (cs ++ tail).dropWhile p = tail := by
  cases tail with
  | nil => rw [List.append_nil, List.dropWhile_eq_nil_iff.2 h]
  | cons c tail => exact dropWhile_append_cons h (htail c rfl)

/-- The first element behind a run does not belong to it. -/
theorem eq_false_of_dropWhile {α : Type} {p : α → Bool} {as rest : List α} {a : α}
    (h : as.dropWhile p = a :: rest) : p a = false := by
  have hhead := List.head?_dropWhile_not p as
  rwa [h] at hhead

/-- What does not belong to a run stands behind it. -/
theorem mem_dropWhile_of_mem {c : Char} (hmem : c ∈ cs) (hc : p c = false) :
    c ∈ cs.dropWhile p := by
  rw [← List.takeWhile_append_dropWhile (p := p) (l := cs)] at hmem
  rcases List.mem_append.1 hmem with hrun | hmem
  · rw [List.all_eq_true.1 List.all_takeWhile c hrun] at hc
    cases hc
  · exact hmem

/-! ## Trimming -/

/-- Nothing is left of a text whose characters are all to be dropped. -/
theorem dropEndWhile_eq_nil (h : ∀ c ∈ cs, p c = true) : dropEndWhile p cs = [] := by
  induction cs with
  | nil => rfl
  | cons c cs ih =>
    obtain ⟨hc, hcs⟩ := List.forall_mem_cons.1 h
    rw [dropEndWhile, ih hcs]
    exact if_pos hc

/-- Characters that are to be dropped make no difference at the end. -/
theorem dropEndWhile_append_of_pos (h : ∀ c ∈ tail, p c = true) :
    dropEndWhile p (cs ++ tail) = dropEndWhile p cs := by
  induction cs with
  | nil => exact dropEndWhile_eq_nil h
  | cons c cs ih => rw [List.cons_append, dropEndWhile, dropEndWhile, ih]

/-- When something is left at the end, nothing in front of it is dropped. -/
theorem dropEndWhile_append_of_ne_nil (h : dropEndWhile p tail ≠ []) :
    dropEndWhile p (cs ++ tail) = cs ++ dropEndWhile p tail := by
  induction cs with
  | nil => rfl
  | cons c cs ih =>
    rw [List.cons_append, dropEndWhile, ih]
    split
    · rename_i hnil
      exact absurd (List.append_eq_nil_iff.1 hnil).2 h
    · rfl

theorem trimEnd_append_of_blank (h : ∀ c ∈ tail, isBlank c = true) :
    trimEnd (cs ++ tail) = trimEnd cs := dropEndWhile_append_of_pos h

theorem trimEnd_append_of_ne_nil (h : trimEnd tail ≠ []) :
    trimEnd (cs ++ tail) = cs ++ trimEnd tail := dropEndWhile_append_of_ne_nil h

/-- A text whose last character is visible has no blanks at its end. -/
theorem trimEnd_concat {c : Char} (h : isBlank c = false) (cs : List Char) :
    trimEnd (cs ++ [c]) = cs ++ [c] := by
  have hlast : trimEnd [c] = [c] := by simp [trimEnd, dropEndWhile, h]
  rw [trimEnd_append_of_ne_nil (by simp [hlast]), hlast]

theorem allBlank_of_trimEnd_eq_nil (h : trimEnd cs = []) : ∀ c ∈ cs, isBlank c = true := by
  obtain ⟨tail, htail, hblank⟩ := dropEndWhile_append isBlank cs
  rw [show dropEndWhile isBlank cs = [] from h, List.nil_append] at htail
  exact htail ▸ hblank

theorem prefix_of_trimEnd (cs : List Char) : trimEnd cs <+: cs := by
  obtain ⟨tail, htail, -⟩ := dropEndWhile_append isBlank cs
  exact ⟨tail, htail.symm⟩

theorem trimStart_cons {c : Char} (h : isBlank c = false) (cs : List Char) :
    trimStart (c :: cs) = c :: cs := List.dropWhile_cons_of_neg (by simp [h])

/-- Without blanks at its front a text is not shortened there. -/
theorem trimStart_append (hne : cs ≠ []) (h : ∀ c ∈ cs, isBlank c = false) (tail : List Char) :
    trimStart (cs ++ tail) = cs ++ tail := by
  obtain ⟨c, cs, rfl⟩ := List.exists_cons_of_ne_nil hne
  exact trimStart_cons (h c List.mem_cons_self) (cs ++ tail)

/-- Behind visible text nothing more is dropped. -/
theorem trimStart_append_of_ne_nil (h : trimStart cs ≠ []) (tail : List Char) :
    trimStart (cs ++ tail) = trimStart cs ++ tail := by
  rw [trimStart, List.dropWhile_append]
  exact if_neg (mt List.isEmpty_iff.1 h)

theorem trimStart_append_of_blank (h : ∀ c ∈ cs, isBlank c = true) (tail : List Char) :
    trimStart (cs ++ tail) = trimStart tail := List.dropWhile_append_of_pos h

theorem indentation_append {c : Char} (h : ∀ d ∈ cs, isBlank d = true) (hc : isBlank c = false)
    (tail : List Char) : indentation (cs ++ c :: tail) = cs.length := by
  rw [indentation, takeWhile_append_cons h hc]

theorem mem_trimStart_of_mem {c : Char} (hmem : c ∈ cs) (hc : isBlank c = false) :
    c ∈ trimStart cs := mem_dropWhile_of_mem hmem hc

/-- Visible characters stay when a text is trimmed. -/
theorem mem_trim_of_mem {c : Char} (hmem : c ∈ cs) (hc : isBlank c = false) :
    c ∈ trim cs := by
  obtain ⟨tail, htail, hblank⟩ := dropEndWhile_append isBlank (trimStart cs)
  have hstart := mem_trimStart_of_mem hmem hc
  rw [htail] at hstart
  rcases List.mem_append.1 hstart with hmem | hmem
  · exact hmem
  · rw [hblank c hmem] at hc
    cases hc

/-- Blanks at the end make no difference when a text is trimmed. -/
theorem trim_append_of_blank (h : ∀ c ∈ tail, isBlank c = true) : trim (cs ++ tail) = trim cs := by
  rw [trim, trim, trimStart, trimStart, List.dropWhile_append]
  split
  · rename_i hnil
    rw [List.isEmpty_iff.1 hnil, List.dropWhile_eq_nil_iff.2 h]
  · exact trimEnd_append_of_blank h

/-- A blank at the front makes no difference when a text is trimmed. -/
theorem trim_cons_of_blank {c : Char} (h : isBlank c = true) (cs : List Char) :
    trim (c :: cs) = trim cs := by
  rw [trim, trimStart, List.dropWhile_cons_of_pos h]
  rfl

/-- A text with visible characters at both ends is trimmed. -/
theorem trim_eq_self (hhead : ∀ c ∈ cs.head?, isBlank c = false)
    (hlast : ∀ c ∈ cs.getLast?, isBlank c = false) : trim cs = cs := by
  cases cs with
  | nil => rfl
  | cons c cs =>
    have hend := trimEnd_concat (hlast _ (List.getLast?_eq_some_getLast (List.cons_ne_nil c cs)))
      (c :: cs).dropLast
    rw [List.dropLast_concat_getLast] at hend
    rw [trim, trimStart_cons (hhead c rfl), hend]

/-! ## Searching -/

/-- A search fails exactly when the piece of text does not occur. -/
theorem before?_eq_none_iff {piece : List Char} : before? piece cs = none ↔ ¬piece <:+: cs := by
  induction cs with
  | nil =>
    rw [before?]
    split <;> simp_all
  | cons c cs ih =>
    have hstart : startsWith piece (c :: cs) = true ↔ piece <+: c :: cs :=
      startsWith_iff.trans ⟨fun ⟨rest, h⟩ => ⟨rest, h.symm⟩, fun ⟨rest, h⟩ => ⟨rest, h.symm⟩⟩
    rw [before?, List.infix_cons_iff, ← hstart]
    split
    · rename_i h
      simp [h]
    · rename_i h
      simp [h, ih]

/-- A piece of text does not begin within characters that differ from its first one. -/
theorem infix_of_infix_append {c : Char} {piece : List Char} (h : c ∉ cs)
    (hoccurs : c :: piece <:+: cs ++ tail) : c :: piece <:+: tail := by
  induction cs with
  | nil => exact hoccurs
  | cons d cs ih =>
    rw [List.mem_cons, not_or] at h
    rw [List.cons_append, List.infix_cons_iff] at hoccurs
    rcases hoccurs with hfront | hoccurs
    · exact absurd (List.cons_prefix_cons.1 hfront).1 h.1
    · exact ih h.2 hoccurs

/-- Each piece is part of the text that is made of all. -/
theorem infix_intercalate {separator piece : List Char} {ls : List (List Char)} (h : piece ∈ ls) :
    piece <:+: separator.intercalate ls := by
  induction ls with
  | nil => cases h
  | cons l ls ih =>
    by_cases hls : ls = []
    · obtain rfl : piece = l := by simpa [hls] using h
      rw [hls, List.intercalate_singleton]
    · rw [List.intercalate_cons_of_ne_nil hls, List.append_assoc]
      rcases List.mem_cons.1 h with rfl | h
      · exact (List.prefix_append _ _).isInfix
      · exact (ih h).trans ((List.suffix_append _ _).trans (List.suffix_append _ _)).isInfix

/-! ## Lines -/

/-- A last piece is put behind a separator. -/
theorem intercalate_concat {separator : List Char} {ls : List (List Char)} (l : List Char)
    (h : ls ≠ []) :
    separator.intercalate (ls ++ [l]) = separator.intercalate ls ++ separator ++ l := by
  induction ls with
  | nil => exact absurd rfl h
  | cons m ls ih =>
    by_cases hls : ls = []
    · simp [hls, List.intercalate_cons_cons]
    · rw [List.cons_append, List.intercalate_cons_of_ne_nil (by simp), ih hls,
        List.intercalate_cons_of_ne_nil hls]
      simp only [List.append_assoc]

theorem joinLines_cons {ls : List Line} (l : Line) (h : ls ≠ []) :
    joinLines (l :: ls) = l ++ '\n' :: joinLines ls := by
  rw [joinLines, List.intercalate_cons_of_ne_nil h, List.append_assoc]
  rfl

theorem joinLines_concat {ls : List Line} (l : Line) (h : ls ≠ []) :
    joinLines (ls ++ [l]) = joinLines ls ++ '\n' :: l := by
  rw [joinLines, intercalate_concat l h, List.append_assoc]
  rfl

/-- A text that is not empty has a line. -/
theorem linesFrom_ne_nil {held cs : List Char} (h : held ≠ [] ∨ cs ≠ []) :
    linesFrom held cs ≠ [] := by
  fun_induction linesFrom held cs with
  | case1 => simp at h
  | case2 held hne => simp
  | case3 => simp
  | case4 => simp
  | case5 held c rest _ _ ih => exact ih (.inl (by simp))

/-- Each line is part of the text. -/
theorem infix_of_mem_linesFrom {held cs : List Char} {l : Line} (h : l ∈ linesFrom held cs) :
    l <:+: held.reverse ++ cs := by
  fun_induction linesFrom held cs with
  | case1 => simp at h
  | case2 held hne => simp_all
  | case3 held rest ih =>
    rcases List.mem_cons.1 h with rfl | h
    · exact (List.prefix_append _ _).isInfix
    · exact (ih h).trans ⟨held.reverse ++ ['\r', '\n'], [], by simp⟩
  | case4 held c rest _ _ ih =>
    rcases List.mem_cons.1 h with rfl | h
    · exact (List.prefix_append _ _).isInfix
    · exact (ih h).trans ⟨held.reverse ++ [c], [], by simp⟩
  | case5 held c rest _ _ ih => simpa using ih h

/-- A line is a part of its text. -/
theorem infix_of_mem_lines {cs : List Char} {l : Line} (h : l ∈ lines cs) : l <:+: cs := by
  simpa using infix_of_mem_linesFrom h

/-- Lines of a text that has no other line ends than line feeds, and none at its end, are joined to
this text. -/
theorem joinLines_linesFrom {held cs : List Char}
    (hseparator : ∀ c ∈ cs, isSeparator c = true → c = '\n') (hlast : cs.getLast? ≠ some '\n') :
    joinLines (linesFrom held cs) = held.reverse ++ cs := by
  fun_induction linesFrom held cs with
  | case1 => rfl
  | case2 held hne => simp
  | case3 held rest ih => exact absurd (hseparator '\r' (by simp) (by decide)) (by decide)
  | case4 held c rest _ hc ih =>
    -- The line feed ends the held line; more follows, since no line feed ends the text.
    obtain rfl : c = '\n' := hseparator c (by simp) hc
    have hrest : rest ≠ [] := by rintro rfl; exact hlast rfl
    have hlast' : rest.getLast? ≠ some '\n' := by
      rw [List.getLast?_cons, List.getLast?_eq_some_getLast hrest] at hlast
      rwa [List.getLast?_eq_some_getLast hrest]
    rw [joinLines_cons _ (linesFrom_ne_nil (.inr hrest)),
      ih (fun d hd => hseparator d (by simp [hd])) hlast']
    simp
  | case5 held c rest _ hc ih =>
    rw [ih (fun d hd => hseparator d (by simp [hd])) ?_]
    · simp
    · intro hrest
      simp [List.getLast?_cons, hrest] at hlast

/-- The lines of a text without other separators than line feeds make up the text, unless a line
feed ends it. -/
theorem joinLines_lines {cs : List Char} (hseparator : ∀ c ∈ cs, isSeparator c = true → c = '\n')
    (hlast : cs.getLast? ≠ some '\n') : joinLines (lines cs) = cs :=
  joinLines_linesFrom hseparator hlast

/-! ## Words -/

/-- A text without blanks is its only piece. -/
theorem splitBlanks_of_word (h : ∀ c ∈ cs, isBlank c = false) : splitBlanks cs = [cs] := by
  induction cs with
  | nil => rfl
  | cons c cs ih =>
    obtain ⟨hc, hcs⟩ := List.forall_mem_cons.1 h
    rw [splitBlanks, ih hcs]
    simp [hc]

/-- A blank in a text splits it. -/
theorem splitBlanks_append {c : Char} (hblank : isBlank c = true) (tail : List Char) :
    splitBlanks (cs ++ c :: tail) = splitBlanks cs ++ splitBlanks tail := by
  induction cs with
  | nil => simp [splitBlanks, hblank]
  | cons d cs ih =>
    rw [List.cons_append, splitBlanks, splitBlanks, ih]
    split
    · rfl
    · cases hsplit : splitBlanks cs with
      | nil => exact absurd hsplit (splitBlanks_ne_nil cs)
      | cons piece pieces => rfl

theorem words_append {c : Char} (hblank : isBlank c = true) (tail : List Char) :
    words (cs ++ c :: tail) = words cs ++ words tail := by
  rw [words, splitBlanks_append hblank, List.filter_append, words, words]

/-- Words one space apart are not changed when the blanks of a text are unified. -/
theorem collapse_intercalate {ws : List (List Char)}
    (h : ∀ w ∈ ws, w ≠ [] ∧ ∀ c ∈ w, isBlank c = false) :
    collapse ([' '].intercalate ws) = [' '].intercalate ws := by
  have hword : ∀ w : List Char, w ≠ [] ∧ (∀ c ∈ w, isBlank c = false) → words w = [w] := by
    rintro w ⟨hne, hw⟩
    simp [words, splitBlanks_of_word hw, hne]
  have hwords : words ([' '].intercalate ws) = ws := by
    induction ws with
    | nil => rfl
    | cons w ws ih =>
      obtain ⟨hw, hws⟩ := List.forall_mem_cons.1 h
      by_cases hnil : ws = []
      · simpa [hnil] using hword w hw
      · rw [List.intercalate_cons_of_ne_nil hnil, List.append_assoc, List.singleton_append,
          words_append (by decide), hword w hw, ih hws]
        rfl
  rw [collapse, hwords]

/-- Blanks have no words. -/
theorem words_of_blank (h : ∀ c ∈ cs, isBlank c = true) : words cs = [] := by
  induction cs with
  | nil => rfl
  | cons c cs ih =>
    obtain ⟨hc, hcs⟩ := List.forall_mem_cons.1 h
    rw [words_cons_of_isBlank cs hc, ih hcs]

/-- Trimming the front changes no words. -/
theorem words_trimStart (cs : List Char) : words (trimStart cs) = words cs := by
  induction cs with
  | nil => rfl
  | cons c cs ih =>
    by_cases hc : isBlank c = true
    · rw [words_cons_of_isBlank cs hc, ← ih, trimStart, List.dropWhile_cons_of_pos hc, trimStart]
    · rw [trimStart_cons (by simpa using hc)]

/-- Blanks at the end change no words. -/
theorem words_append_of_blank {tail : List Char} (h : ∀ c ∈ tail, isBlank c = true) :
    words (cs ++ tail) = words cs := by
  cases tail with
  | nil => rw [List.append_nil]
  | cons c tail =>
    obtain ⟨hc, htail⟩ := List.forall_mem_cons.1 h
    rw [words_append hc, words_of_blank htail, List.append_nil]

/-- Trimming the end changes no words. -/
theorem words_trimEnd (cs : List Char) : words (trimEnd cs) = words cs := by
  obtain ⟨tail, htail, hblank⟩ := dropEndWhile_append isBlank cs
  conv_rhs => rw [htail, words_append_of_blank hblank]
  rfl

/-- The blanks around a text do not count when its blanks are unified. -/
theorem collapse_trim (cs : List Char) : collapse (trim cs) = collapse cs := by
  rw [collapse, trim, words_trimEnd, words_trimStart, collapse]

/-! ## Openings -/

section Openings

variable {p : Char} {ps opening cs tail : List Char} {c : Char}

/-- Whether a text begins with an opening is settled before a character that the opening lacks. -/
theorem after?_append_cons (h : c ∉ opening) :
    after? opening (cs ++ c :: tail) = (after? opening cs).map (· ++ c :: tail) := by
  induction opening generalizing cs with
  | nil => simp
  | cons p ps ih =>
    obtain ⟨hp, hps⟩ := not_or.1 (mt List.mem_cons.2 h)
    cases cs with
    | nil => simp [after?, Ne.symm hp]
    | cons d cs =>
      rw [List.cons_append, after?, after?]
      split
      · exact ih hps
      · rfl

theorem startsWith_append_cons (h : c ∉ opening) :
    startsWith opening (cs ++ c :: tail) = startsWith opening cs := by
  rw [startsWith, after?_append_cons h, Option.isSome_map, startsWith]

theorem after?_eq_none_iff : after? opening cs = none ↔ startsWith opening cs = false := by
  rw [startsWith, Option.isSome_eq_false_iff, Option.isNone_iff_eq_none]

/-- The first visible character up to a parenthesis is no mark that is missing before it. -/
theorem startsWith_trimStart {mark : Char} (hmark : mark ∉ cs) (hne : mark ≠ '(') :
    startsWith [mark] (trimStart (cs ++ '(' :: tail)) = false := by
  rw [trimStart, List.dropWhile_append]
  split
  · rw [List.dropWhile_cons_of_neg (by decide)]
    simp [startsWith, after?, hne]
  · rename_i hvisible
    obtain ⟨d, rest, hd⟩ := List.exists_cons_of_ne_nil (mt List.isEmpty_iff.2 hvisible)
    have hmem : d ∈ cs := (List.dropWhile_suffix isBlank).subset (hd ▸ List.mem_cons_self)
    have hdmark : mark ≠ d := by rintro rfl; exact hmark hmem
    rw [hd]
    simp [startsWith, after?, hdmark]

end Openings

/-! ## Marks that end a run -/

section Marks

variable {p : Char → Bool} {c : Char} {cs : List Char}

/-- A run ends at the first character that does not belong to it, whatever stands behind. -/
theorem takeWhile_append_stop (hc : p c = false) (cs tail : List Char) :
    (cs ++ c :: tail).takeWhile p = cs.takeWhile p := by
  induction cs with
  | nil => exact List.takeWhile_cons_of_neg (by simp [hc])
  | cons d cs ih =>
    rw [List.cons_append, List.takeWhile_cons, List.takeWhile_cons, ih]

/-- What is dropped ends in front of a character that is to stay. -/
theorem dropWhile_append_stop (hc : p c = false) (cs tail : List Char) :
    (cs ++ c :: tail).dropWhile p = cs.dropWhile p ++ c :: tail := by
  induction cs with
  | nil => exact List.dropWhile_cons_of_neg (by simp [hc])
  | cons d cs ih =>
    rw [List.cons_append, List.dropWhile_cons, List.dropWhile_cons, ih]
    split <;> rfl

theorem trimStart_append_stop (hc : isBlank c = false) (cs tail : List Char) :
    trimStart (cs ++ c :: tail) = trimStart cs ++ c :: tail := dropWhile_append_stop hc cs tail

/-- Blanks end in front of a visible character. -/
theorem afterBlanks?_append_stop (hc : isBlank c = false) (cs tail : List Char) :
    afterBlanks? (cs ++ c :: tail) = (afterBlanks? cs).map (· ++ c :: tail) := by
  cases cs with
  | nil => rw [List.nil_append, afterBlanks?, afterBlanks?, hc]; rfl
  | cons d cs =>
    rw [List.cons_append, afterBlanks?, afterBlanks?, trimStart_append_stop hc]
    split <;> rfl

/-- Trimming the front twice does no more than trimming it once. -/
theorem trimStart_trimStart_append (cs tail : List Char) :
    trimStart (trimStart cs ++ tail) = trimStart (cs ++ tail) := by
  induction cs with
  | nil => rfl
  | cons d cs ih =>
    cases hd : isBlank d with
    | true =>
      have hdrop : ∀ rest, trimStart (d :: rest) = trimStart rest :=
        fun rest => List.dropWhile_cons_of_pos hd
      rw [List.cons_append, hdrop, hdrop, ih]
    | false => rw [trimStart_cons hd]

/-- A text can not be cut at a mark that it does not have. -/
theorem cutAt_eq_none_iff {mark : Char} : cutAt mark cs = none ↔ mark ∉ cs := by
  constructor
  · intro hnone hmem
    obtain ⟨before, rest, rfl, hbefore⟩ := List.eq_append_cons_of_mem hmem
    rw [cutAt_eq_some_iff.2 ⟨rfl, hbefore⟩] at hnone
    cases hnone
  · intro hmem
    refine Option.eq_none_iff_forall_ne_some.2 ?_
    rintro ⟨before, rest⟩ hcut
    obtain ⟨rfl, -⟩ := cutAt_eq_some_iff.1 hcut
    exact hmem (List.mem_append_right before List.mem_cons_self)

/-- What follows blanks stands behind one blank at least. -/
theorem exists_of_afterBlanks? {rest : List Char} (h : afterBlanks? cs = some rest) :
    ∃ gap, cs = gap ++ rest ∧ allBlank gap = true ∧ gap ≠ [] := by
  cases cs with
  | nil => cases h
  | cons c cs =>
    rw [afterBlanks?] at h
    split at h
    · rename_i hc
      cases h
      refine ⟨c :: cs.takeWhile isBlank, ?_, ?_, List.cons_ne_nil _ _⟩
      · exact congrArg (c :: ·) List.takeWhile_append_dropWhile.symm
      · rw [allBlank_cons, hc]
        exact List.all_takeWhile
    · cases h

end Marks

end HeaderApi.Text
