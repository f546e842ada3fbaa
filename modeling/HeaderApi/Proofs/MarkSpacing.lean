import HeaderApi.Proofs.TightTexts

/-!
# Blanks in front of pointer marks

The blanks between a type and a pointer or reference mark behind it do not change the spelling of
the whole exactly when the type ends in a word or in a mark.
-/

namespace HeaderApi

open Text

/-! ## Unified blanks -/

namespace Text

variable {s w u : List Char} {b c d : Char}

theorem collapse_cons_of_blank (hb : isBlank b = true) (u : List Char) :
    collapse (b :: u) = collapse u := by
  rw [collapse, words_cons_of_isBlank u hb, collapse]

/-- Blanks in front of a text are dropped. -/
theorem collapse_append_of_blank (hw : ∀ c ∈ w, isBlank c = true) (u : List Char) :
    collapse (w ++ u) = collapse u := by
  induction w with
  | nil => rfl
  | cons b w ih =>
    obtain ⟨hb, hw⟩ := List.forall_mem_cons.1 hw
    rw [List.cons_append, collapse_cons_of_blank hb, ih hw]

/-- A visible character in front of another one is part of the same word. -/
theorem collapse_cons_cons (hc : isBlank c = false) (hd : isBlank d = false) (u : List Char) :
    collapse (c :: d :: u) = c :: collapse (d :: u) := by
  obtain ⟨piece, pieces, hsplit⟩ := List.exists_cons_of_ne_nil (splitBlanks_ne_nil u)
  have hlater : words (d :: u) = (d :: piece) :: pieces.filter (· ≠ []) := by
    simp [words, splitBlanks, hd, hsplit]
  have hwords : words (c :: d :: u) = (c :: d :: piece) :: pieces.filter (· ≠ []) := by
    simp [words, splitBlanks, hc, hd, hsplit]
  rw [collapse, collapse, hlater, hwords]
  cases pieces.filter (· ≠ []) <;> rfl

/-- A visible character in front of a blank ends its word. -/
theorem collapse_cons_blank (hc : isBlank c = false) (hb : isBlank b = true) (u : List Char) :
    collapse (c :: b :: u) = c :: if collapse u = [] then [] else ' ' :: collapse u := by
  have hwords : words (c :: b :: u) = [c] :: words u := by simp [words, splitBlanks, hc, hb]
  rw [collapse, hwords, collapse]
  cases hu : words u with
  | nil => rfl
  | cons v vs =>
    have hmem : v ∈ words u := hu ▸ List.mem_cons_self
    obtain ⟨hne, -⟩ := mem_words hmem
    obtain ⟨e, v, rfl⟩ := List.exists_cons_of_ne_nil hne
    have hlater : [' '].intercalate ((e :: v) :: vs) ≠ [] := by
      cases vs <;> exact List.cons_ne_nil e _
    rw [if_neg hlater, List.intercalate_cons_cons]
    rfl

/-- A visible character at the front stays there. -/
theorem exists_collapse_cons (hc : isBlank c = false) (u : List Char) :
    ∃ unified, collapse (c :: u) = c :: unified := by
  cases u with
  | nil => exact ⟨[], by simp [collapse, words, splitBlanks, hc]⟩
  | cons d u =>
    cases hd : isBlank d with
    | true => exact ⟨_, collapse_cons_blank hc hd u⟩
    | false => exact ⟨_, collapse_cons_cons hc hd u⟩

/-- What follows the last character of a text that ends visibly is unified as it is behind that
character alone. -/
theorem exists_collapse_append (hlast : s.getLast? = some c) (hc : isBlank c = false) :
    ∃ front, ∀ tail unified, collapse (c :: tail) = c :: unified →
      collapse (s ++ tail) = front ++ c :: unified := by
  induction s with
  | nil => cases hlast
  | cons d s ih =>
    cases s with
    | nil =>
      obtain rfl : d = c := Option.some.inj hlast
      exact ⟨[], fun tail unified htail => htail⟩
    | cons e s =>
      obtain ⟨front, hfront⟩ := ih hlast
      cases hd : isBlank d with
      | true => exact ⟨front, fun tail unified htail =>
          (collapse_cons_of_blank hd _).trans (hfront tail unified htail)⟩
      | false =>
        cases he : isBlank e with
        | false => exact ⟨d :: front, fun tail unified htail =>
            (collapse_cons_cons hd he _).trans (congrArg _ (hfront tail unified htail))⟩
        | true =>
          -- another word follows the one that `d` ends
          refine ⟨d :: ' ' :: front, fun tail unified htail => ?_⟩
          have hlater := hfront tail unified htail
          rw [List.cons_append, collapse_cons_of_blank he] at hlater
          rw [List.cons_append, List.cons_append, collapse_cons_blank hd he, hlater,
            if_neg (List.append_ne_nil_of_right_ne_nil front (List.cons_ne_nil c unified))]
          rfl

end Text

/-! ## Spaces and marks -/

namespace Spelling

variable {front rest : List Char} {c d x m : Char}

/-- Only the characters that meet matter where two texts are put together. -/
theorem spaceMarks_append (hlast : front.getLast? = some c) (d : Char) (rest : List Char) :
    spaceMarks (front ++ d :: rest) = spaceMarks front ++
      if isWord c && isMark d then ' ' :: spaceMarks (d :: rest) else spaceMarks (d :: rest) := by
  fun_induction spaceMarks front with
  | case1 => cases hlast
  | case2 e =>
    obtain rfl : e = c := Option.some.inj hlast
    rw [List.singleton_append, spaceMarks]
    split
    · rfl
    · rfl
  | case3 e f tail hmark ih =>
    rw [List.cons_append, List.cons_append, spaceMarks, if_pos hmark, ← List.cons_append,
      ih hlast]
    rfl
  | case4 e f tail hmark ih =>
    rw [List.cons_append, List.cons_append, spaceMarks, if_neg hmark, ← List.cons_append,
      ih hlast]
    rfl

/-- A blank between two marks is dropped, and any other blank stays. -/
theorem joinMarks_cons_space (c d : Char) (rest : List Char) :
    joinMarks (c :: ' ' :: d :: rest) = if isMark c && isMark d then c :: joinMarks (d :: rest)
      else c :: joinMarks (' ' :: d :: rest) := by
  rw [joinMarks]

/-- A character without a blank behind it stays. -/
theorem joinMarks_cons_of_ne (hd : d ≠ ' ') (c : Char) (rest : List Char) :
    joinMarks (c :: d :: rest) = c :: joinMarks (d :: rest) := by
  rw [joinMarks]
  rintro e tail heq
  exact hd (List.cons.inj heq).1

/-- A character that is no mark stays. -/
theorem joinMarks_cons_of_not_isMark (hc : isMark c = false) (rest : List Char) :
    joinMarks (c :: rest) = c :: joinMarks rest := by
  rw [joinMarks.eq_def]
  split
  · rename_i heq
    obtain ⟨rfl, rfl⟩ := List.cons.inj heq
    simp [hc]
  · rename_i heq
    obtain ⟨rfl, rfl⟩ := List.cons.inj heq
    rfl
  · rename_i heq
    cases heq

/-- Behind a visible character that is no mark nothing is joined. -/
theorem joinMarks_append (hlast : front.getLast? = some c) (hc : isMark c = false)
    (hvisible : c ≠ ' ') (rest : List Char) :
    joinMarks (front ++ rest) = joinMarks front ++ joinMarks rest := by
  -- A pair that straddles the end of the front would need `c` to be a mark or a space.
  fun_induction joinMarks front with
  | case1 e d tail hmarks ih =>
    rw [List.cons_append, List.cons_append, List.cons_append, joinMarks_cons_space, if_pos hmarks,
      ← List.cons_append, ih hlast]
    rfl
  | case2 e d tail hmarks ih =>
    rw [List.cons_append, List.cons_append, List.cons_append, joinMarks_cons_space, if_neg hmarks,
      ← List.cons_append, ← List.cons_append, ih hlast]
    rfl
  | case3 e tail hshape ih =>
    cases tail with
    | nil =>
      obtain rfl : e = c := Option.some.inj hlast
      exact joinMarks_cons_of_not_isMark hc rest
    | cons f tail =>
      have hf : f ≠ ' ' := by
        rintro rfl
        cases tail with
        | nil => exact hvisible (Option.some.inj hlast).symm
        | cons d tail => exact hshape d tail rfl
      rw [List.cons_append, List.cons_append, joinMarks_cons_of_ne hf, ← List.cons_append,
        ih hlast]
      rfl
  | case4 => cases hlast

/-- A space between two marks is dropped wherever they stand. -/
theorem joinMarks_space (hx : isMark x = true) (hm : isMark m = true) (front rest : List Char) :
    joinMarks (front ++ x :: ' ' :: m :: rest) = joinMarks (front ++ x :: m :: rest) := by
  have hspace {c : Char} (hc : isMark c = true) : c ≠ ' ' := by
    rintro rfl
    cases hc
  have hmarks : joinMarks (x :: ' ' :: m :: rest) = joinMarks (x :: m :: rest) := by
    rw [joinMarks_cons_space, if_pos (by rw [hx, hm]; rfl), joinMarks_cons_of_ne (hspace hm)]
  -- The front is joined as before: only the pair that straddles its end can see the marks.
  fun_induction joinMarks front with
  | case1 e d tail hjoin ih =>
    simp only [List.cons_append] at ih ⊢
    rw [joinMarks_cons_space, joinMarks_cons_space, if_pos hjoin, if_pos hjoin, ih]
  | case2 e d tail hjoin ih =>
    simp only [List.cons_append] at ih ⊢
    rw [joinMarks_cons_space, joinMarks_cons_space, if_neg hjoin, if_neg hjoin, ih]
  | case3 e tail hshape ih =>
    cases tail with
    | nil =>
      rw [List.singleton_append, List.singleton_append, joinMarks_cons_of_ne (hspace hx),
        joinMarks_cons_of_ne (hspace hx), hmarks]
    | cons f tail =>
      by_cases hf : f = ' '
      · -- the space is the last character in front of the marks
        subst hf
        obtain rfl : tail = [] := by
          cases tail with
          | nil => rfl
          | cons d tail => exact (hshape d tail rfl).elim
        simp only [List.cons_append, List.nil_append] at ih ⊢
        rw [joinMarks_cons_space e x (' ' :: m :: rest), joinMarks_cons_space e x (m :: rest),
          hmarks, ih]
      · simp only [List.cons_append] at ih ⊢
        rw [joinMarks_cons_of_ne hf, joinMarks_cons_of_ne hf, ih]
  | case4 => exact hmarks

/-! ## Blanks in front of a mark -/

variable {s w t : List Char}

/-- The blanks between a text that ends visibly and a mark behind it become one space. -/
theorem exists_collapse_mark (hlast : s.getLast? = some x) (hx : isBlank x = false)
    (hm : isMark m = true) (t : List Char) : ∃ front unified,
      collapse (s ++ m :: t) = front ++ [x] ++ m :: unified ∧
      ∀ w, w ≠ [] → (∀ c ∈ w, isBlank c = true) →
        collapse (s ++ (w ++ m :: t)) = front ++ [x] ++ ' ' :: m :: unified := by
  obtain ⟨front, hfront⟩ := exists_collapse_append hlast hx
  obtain ⟨unified, hunified⟩ := exists_collapse_cons (isBlank_of_isMark hm) t
  refine ⟨front, unified, ?_, fun w hne hw => ?_⟩
  · have hmeet := collapse_cons_cons hx (isBlank_of_isMark hm) t
    rw [hunified] at hmeet
    rw [hfront _ _ hmeet, List.append_assoc]
    rfl
  · obtain ⟨b, w, rfl⟩ := List.exists_cons_of_ne_nil hne
    obtain ⟨hb, hw⟩ := List.forall_mem_cons.1 hw
    have hmeet := collapse_cons_blank hx hb (w ++ m :: t)
    rw [collapse_append_of_blank hw, hunified, if_neg (List.cons_ne_nil m unified)] at hmeet
    rw [List.cons_append, hfront _ _ hmeet, List.append_assoc]
    rfl

/-- **Blanks in front of a pointer or reference mark do not count exactly behind a word or a
mark.** -/
theorem normalize_blanks_iff (hlast : s.getLast? = some x) (hx : isBlank x = false)
    (hm : isMark m = true) (hw : ∀ c ∈ w, isBlank c = true) (hne : w ≠ []) :
    normalize (s ++ (w ++ m :: t)) = normalize (s ++ m :: t) ↔
      isWord x = true ∨ isMark x = true := by
  obtain ⟨front, unified, hmark, hblanks⟩ := exists_collapse_mark hlast hx hm t
  have hend : (front ++ [x]).getLast? = some x := List.getLast?_concat
  obtain ⟨spaced, hspaced⟩ := List.head?_eq_some_iff.1 (head?_spaceMarks (m :: unified))
  -- with a space between, the characters that meet change nothing
  have hspace : spaceMarks (front ++ [x] ++ ' ' :: m :: unified) =
      spaceMarks (front ++ [x]) ++ ' ' :: m :: spaced := by
    rw [spaceMarks_append hend, ← hspaced]
    simp [show isMark ' ' = false by decide, spaceMarks, show isWord ' ' = false by decide]
  have hmeet : spaceMarks (front ++ [x] ++ m :: unified) =
      spaceMarks (front ++ [x]) ++ if isWord x then ' ' :: m :: spaced else m :: spaced := by
    rw [spaceMarks_append hend, hm, Bool.and_true, hspaced]
  rw [normalize, normalize, hblanks w hne hw, hmark, hspace, hmeet]
  cases hword : isWord x with
  | true => simp
  | false =>
    rw [if_neg Bool.false_ne_true]
    have hlast' : (spaceMarks (front ++ [x])).getLast? = some x := by
      rw [getLast?_spaceMarks, hend]
    cases hxmark : isMark x with
    | true =>
      obtain ⟨kept, hkept⟩ := List.getLast?_eq_some_iff.1 hlast'
      have hjoin := joinMarks_space hxmark hm kept spaced
      rw [hkept, List.append_assoc, List.append_assoc]
      simpa using hjoin
    | false =>
      have hvisible : x ≠ ' ' := by
        rintro rfl
        cases hx
      rw [joinMarks_append hlast' hxmark hvisible, joinMarks_append hlast' hxmark hvisible,
        joinMarks_cons_of_not_isMark (by decide)]
      -- the space stays, and makes the spelling longer
      refine iff_of_false (fun heq => ?_) (by simp)
      have hlength := congrArg List.length heq
      simp at hlength

/-- Blanks behind a letter and behind another mark make no difference. -/
theorem normalize_blanks_iff_char :
    (normalize ("const char".toList ++ ("\t ".toList ++ '*' :: "*".toList)) =
        normalize ("const char".toList ++ '*' :: "*".toList) ↔
      isWord 'r' = true ∨ isMark 'r' = true) ∧
    (normalize ("char *".toList ++ (" ".toList ++ '&' :: [])) =
        normalize ("char *".toList ++ '&' :: []) ↔ isWord '*' = true ∨ isMark '*' = true) :=
  ⟨normalize_blanks_iff (by decide) (by decide) (by decide) (List.forall_mem_cons.2
      ⟨by decide, List.forall_mem_singleton.2 (by decide)⟩) (by decide),
    normalize_blanks_iff (by decide) (by decide) (by decide)
      (List.forall_mem_singleton.2 (by decide)) (by decide)⟩

/-- Behind the closing bracket of template arguments a blank in front of a mark is kept. -/
theorem not_forall_normalize_blanks :
    ¬ ∀ (s w t : List Char) (m x : Char), s.getLast? = some x → isBlank x = false →
      isMark m = true → (∀ c ∈ w, isBlank c = true) →
      normalize (s ++ m :: t) = normalize (s ++ (w ++ m :: t)) := by
  intro h
  have heq := h "Foo<T>".toList [' '] [] '*' '>' (by decide) (by decide) (by decide)
    (List.forall_mem_singleton.2 (by decide))
  exact absurd heq (by decide)

end Spelling

end HeaderApi
