import HeaderApi.Proofs.Texts

/-!
# Lines between line feeds

Joining lines and cutting a text at its line feeds undo each other, for lines that are texts of
several lines themselves too.  What trimming leaves of a text are lines of it, of which the first
and the last may have lost blanks.
-/

namespace HeaderApi.Text

variable {mark c : Char} {cs tail : List Char}

/-! ## Pieces -/

/-- There is always a piece, if only an empty one. -/
theorem pieces_ne_nil (mark : Char) (cs : List Char) : pieces mark cs ≠ [] := by
  cases cs with
  | nil => exact List.cons_ne_nil _ _
  | cons c cs =>
    rw [pieces]
    split
    · exact List.cons_ne_nil _ _
    · split
      · exact List.cons_ne_nil _ _
      · exact List.cons_ne_nil _ _

theorem exists_pieces_eq_cons (mark : Char) (cs : List Char) :
    ∃ piece others, pieces mark cs = piece :: others :=
  List.exists_cons_of_ne_nil (pieces_ne_nil mark cs)

@[simp] theorem pieces_cons_self (mark : Char) (cs : List Char) :
    pieces mark (mark :: cs) = [] :: pieces mark cs := by
  rw [pieces, if_pos rfl]

/-- Another character belongs to the first piece. -/
theorem pieces_cons_of_ne (h : c ≠ mark) {piece : List Char} {others : List (List Char)}
    (hpieces : pieces mark cs = piece :: others) :
    pieces mark (c :: cs) = (c :: piece) :: others := by
  rw [pieces, if_neg h, hpieces]

/-- A text with a mark inside is cut there. -/
theorem pieces_append (cs tail : List Char) :
    pieces mark (cs ++ mark :: tail) = pieces mark cs ++ pieces mark tail := by
  induction cs with
  | nil => exact pieces_cons_self mark tail
  | cons c cs ih =>
    by_cases hc : c = mark
    · subst hc
      rw [List.cons_append, pieces_cons_self, pieces_cons_self, ih, List.cons_append]
    · obtain ⟨piece, others, hpieces⟩ := exists_pieces_eq_cons mark cs
      rw [hpieces] at ih
      rw [List.cons_append, pieces_cons_of_ne hc ih, pieces_cons_of_ne hc hpieces]
      rfl

/-- A text without the mark is its only piece. -/
theorem pieces_of_not_mem (h : mark ∉ cs) : pieces mark cs = [cs] := by
  induction cs with
  | nil => rfl
  | cons c cs ih =>
    obtain ⟨hc, hcs⟩ := not_or.1 (mt List.mem_cons.2 h)
    exact pieces_cons_of_ne (Ne.symm hc) (ih hcs)

/-- A character behind a text belongs to the last piece. -/
theorem pieces_concat_of_ne (h : c ≠ mark) {front : List (List Char)} {last : List Char}
    (hpieces : pieces mark cs = front ++ [last]) :
    pieces mark (cs ++ [c]) = front ++ [last ++ [c]] := by
  induction cs generalizing front last with
  | nil =>
    obtain ⟨rfl, rfl⟩ : front = [] ∧ last = [] := by
      cases front with
      | nil => exact ⟨rfl, (List.cons.inj hpieces).1.symm⟩
      | cons => simp at hpieces
    exact pieces_of_not_mem (by simp [Ne.symm h])
  | cons d cs ih =>
    by_cases hd : d = mark
    · subst hd
      rw [pieces_cons_self] at hpieces
      -- the empty piece in front is not the last one
      obtain ⟨front, rfl⟩ : ∃ front', front = [] :: front' := by
        cases front with
        | nil => exact absurd (List.cons.inj hpieces).2 (pieces_ne_nil d cs)
        | cons piece front => exact ⟨front, by rw [(List.cons.inj hpieces).1]⟩
      rw [List.cons_append, pieces_cons_self, ih (List.cons.inj hpieces).2, List.cons_append]
    · obtain ⟨piece, others, hcs⟩ := exists_pieces_eq_cons mark cs
      rw [pieces_cons_of_ne hd hcs] at hpieces
      rw [List.cons_append]
      cases front with
      | nil =>
        obtain ⟨rfl, rfl⟩ := List.cons.inj hpieces
        exact pieces_cons_of_ne hd (@ih [] piece hcs)
      | cons first front =>
        obtain ⟨rfl, rfl⟩ := List.cons.inj hpieces
        exact pieces_cons_of_ne hd (@ih (piece :: front) last hcs)

/-- The characters of a piece come from the text. -/
theorem mem_of_mem_pieces {piece : List Char} (hpiece : piece ∈ pieces mark cs)
    (hc : c ∈ piece) : c ∈ cs := by
  induction cs generalizing piece with
  | nil =>
    rw [List.mem_singleton.1 hpiece] at hc
    cases hc
  | cons d cs ih =>
    by_cases hd : d = mark
    · subst hd
      rw [pieces_cons_self] at hpiece
      rcases List.mem_cons.1 hpiece with rfl | hpiece
      · cases hc
      · exact List.mem_cons_of_mem d (ih hpiece hc)
    · obtain ⟨first, others, hcs⟩ := exists_pieces_eq_cons mark cs
      rw [hcs] at ih
      rw [pieces_cons_of_ne hd hcs] at hpiece
      rcases List.mem_cons.1 hpiece with rfl | hpiece
      · rcases List.mem_cons.1 hc with rfl | hc
        · exact List.mem_cons_self
        · exact List.mem_cons_of_mem d (ih List.mem_cons_self hc)
      · exact List.mem_cons_of_mem d (ih (List.mem_cons_of_mem _ hpiece) hc)

/-! ## Joined lines -/

/-- A character in front of the first line is in front of the joined lines. -/
theorem joinLines_cons_cons (l : Line) (ls : List Line) :
    joinLines ((c :: l) :: ls) = c :: joinLines (l :: ls) := by
  cases ls with
  | nil => rw [joinLines_singleton, joinLines_singleton]
  | cons m ls =>
    rw [joinLines_cons _ (List.cons_ne_nil m ls), joinLines_cons _ (List.cons_ne_nil m ls),
      List.cons_append]

theorem head?_joinLines (c : Char) (l : Line) (ls : List Line) :
    (joinLines ((c :: l) :: ls)).head? = some c := by
  rw [joinLines_cons_cons, List.head?_cons]

/-- Joined lines end with the last character of the last line. -/
theorem getLast?_joinLines (ls : List Line) (l : Line) (c : Char) :
    (joinLines (ls ++ [l ++ [c]])).getLast? = some c := by
  by_cases hnil : ls = []
  · rw [hnil, List.nil_append, joinLines_singleton, List.getLast?_concat]
  · rw [joinLines_concat _ hnil, ← List.cons_append, ← List.append_assoc, List.getLast?_concat]

/-- Lines joined in two runs are joined by one more line feed. -/
theorem joinLines_append {front back : List Line} (hfront : front ≠ []) (hback : back ≠ []) :
    joinLines (front ++ back) = joinLines front ++ '\n' :: joinLines back := by
  induction front with
  | nil => exact absurd rfl hfront
  | cons l front ih =>
    by_cases hnil : front = []
    · rw [hnil, List.singleton_append, joinLines_cons l hback, joinLines_singleton]
    · rw [List.cons_append, joinLines_cons l (List.append_ne_nil_of_left_ne_nil hnil back), ih hnil,
        joinLines_cons l hnil, List.append_assoc, List.cons_append]

/-- The lines between its line feeds make up a text. -/
theorem joinLines_pieces (cs : List Char) : joinLines (pieces '\n' cs) = cs := by
  induction cs with
  | nil => rfl
  | cons c cs ih =>
    by_cases hc : c = '\n'
    · subst hc
      rw [pieces_cons_self, joinLines_cons _ (pieces_ne_nil _ cs), ih, List.nil_append]
    · obtain ⟨piece, others, hcs⟩ := exists_pieces_eq_cons '\n' cs
      rw [pieces_cons_of_ne hc hcs, joinLines_cons_cons, ← hcs, ih]

/-- Joined lines are cut into the pieces of each of them. -/
theorem pieces_joinLines {ls : List Line} (h : ls ≠ []) :
    pieces '\n' (joinLines ls) = ls.flatMap (pieces '\n') := by
  induction ls with
  | nil => exact absurd rfl h
  | cons l ls ih =>
    by_cases hls : ls = []
    · rw [hls, joinLines_singleton, List.flatMap_singleton]
    · rw [joinLines_cons l hls, pieces_append, ih hls, List.flatMap_cons]

theorem flatMap_pieces {ls : List Line} (h : ∀ l ∈ ls, '\n' ∉ l) :
    ls.flatMap (pieces '\n') = ls := by
  rw [List.flatMap_congr fun l hl => pieces_of_not_mem (h l hl), List.flatMap_singleton']

/-- It does not matter whether lines are joined at once or line by line. -/
theorem joinLines_flatMap_pieces (ls : List Line) :
    joinLines (ls.flatMap (pieces '\n')) = joinLines ls := by
  by_cases hls : ls = []
  · rw [hls, List.flatMap_nil]
  · rw [← pieces_joinLines hls, joinLines_pieces]

/-- Some of the lines may be joined first. -/
theorem joinLines_append_joinLines (front : List Line) {ls : List Line} (h : ls ≠ [])
    (back : List Line) :
    joinLines (front ++ joinLines ls :: back) = joinLines (front ++ ls ++ back) := by
  rw [← joinLines_flatMap_pieces, ← joinLines_flatMap_pieces (front ++ ls ++ back),
    List.flatMap_append, List.flatMap_cons, pieces_joinLines h, List.flatMap_append,
    List.flatMap_append, List.append_assoc]

theorem linesFrom_newline (held rest : List Char) :
    linesFrom held ('\n' :: rest) = held.reverse :: linesFrom [] rest := by
  simp [linesFrom, isSeparator]

theorem linesFrom_cons (h : isSeparator c = false) (held rest : List Char) :
    linesFrom held (c :: rest) = linesFrom (c :: held) rest := by
  have hreturn : c ≠ '\r' := by
    rintro rfl
    exact absurd h (by decide)
  simp [linesFrom, h, hreturn]

/-- A text that ends with a line feed and has no other separators has the lines between its line
feeds. -/
theorem lines_concat (h : ∀ c ∈ cs, isSeparator c = true → c = '\n') :
    lines (cs ++ ['\n']) = pieces '\n' cs := by
  -- The reading holds the line that it is in; the pieces of what is left go on from there.
  suffices hfrom : ∀ held piece others, pieces '\n' cs = piece :: others →
      linesFrom held (cs ++ ['\n']) = (held.reverse ++ piece) :: others by
    obtain ⟨piece, others, hcs⟩ := exists_pieces_eq_cons '\n' cs
    rw [lines, hfrom [] piece others hcs, hcs]
    rfl
  induction cs with
  | nil =>
    intro held piece others hcs
    cases hcs
    rw [List.nil_append, linesFrom_newline, List.append_nil]
    rfl
  | cons c cs ih =>
    obtain ⟨hc, hcs⟩ := List.forall_mem_cons.1 h
    intro held piece others hpieces
    obtain ⟨first, later, hlater⟩ := exists_pieces_eq_cons '\n' cs
    by_cases hfeed : c = '\n'
    · subst hfeed
      rw [pieces_cons_self, hlater] at hpieces
      obtain ⟨rfl, rfl⟩ := List.cons.inj hpieces
      rw [List.cons_append, linesFrom_newline, ih hcs [] first later hlater, List.append_nil,
        List.reverse_nil, List.nil_append]
    · rw [pieces_cons_of_ne hfeed hlater] at hpieces
      obtain ⟨rfl, rfl⟩ := List.cons.inj hpieces
      rw [List.cons_append, linesFrom_cons (Bool.eq_false_iff.2 (mt hc hfeed)),
        ih hcs (c :: held) first later hlater, List.reverse_cons, List.append_assoc,
        List.singleton_append]

/-! ## Trimmed texts -/

/-- A line of a text that was trimmed at the front is a line of the text but for blanks at its
front. -/
theorem exists_mem_pieces_trimStart {l : Line} (h : l ∈ pieces '\n' (trimStart cs)) :
    ∃ front, (∀ c ∈ front, isBlank c = true) ∧ front ++ l ∈ pieces '\n' cs := by
  induction cs with
  | nil => exact ⟨[], List.forall_mem_nil _, h⟩
  | cons c cs ih =>
    by_cases hblank : isBlank c = true
    · rw [trimStart, List.dropWhile_cons_of_pos hblank] at h
      obtain ⟨front, hfront, hmem⟩ := ih h
      by_cases hc : c = '\n'
      · subst hc
        rw [pieces_cons_self]
        exact ⟨front, hfront, List.mem_cons_of_mem _ hmem⟩
      · obtain ⟨first, later, hlater⟩ := exists_pieces_eq_cons '\n' cs
        rw [hlater] at hmem
        rw [pieces_cons_of_ne hc hlater]
        rcases List.mem_cons.1 hmem with rfl | hmem
        · exact ⟨c :: front, List.forall_mem_cons.2 ⟨hblank, hfront⟩, List.mem_cons_self⟩
        · exact ⟨front, hfront, List.mem_cons_of_mem _ hmem⟩
    · rw [trimStart_cons (Bool.eq_false_iff.2 hblank)] at h
      exact ⟨[], List.forall_mem_nil _, h⟩

/-- A line of a text is a line of that text with blanks behind it, but for blanks at its end. -/
theorem exists_mem_pieces_append_of_blank {l : Line} (h : l ∈ pieces '\n' cs)
    (htail : ∀ c ∈ tail, isBlank c = true) :
    ∃ back, (∀ c ∈ back, isBlank c = true) ∧ l ++ back ∈ pieces '\n' (cs ++ tail) := by
  induction tail generalizing cs l with
  | nil => exact ⟨[], htail, by rwa [List.append_nil, List.append_nil]⟩
  | cons c tail ih =>
    obtain ⟨hc, htail⟩ := List.forall_mem_cons.1 htail
    -- one more blank at the end of the text is at the end of its last line, or ends it
    obtain ⟨back, hback, hmem⟩ : ∃ back, (∀ c ∈ back, isBlank c = true) ∧
        l ++ back ∈ pieces '\n' (cs ++ [c]) := by
      by_cases hfeed : c = '\n'
      · subst hfeed
        refine ⟨[], List.forall_mem_nil _, ?_⟩
        rw [List.append_nil, pieces_append]
        exact List.mem_append_left _ h
      · have hlast := (List.dropLast_concat_getLast (pieces_ne_nil '\n' cs)).symm
        rw [hlast] at h
        rw [pieces_concat_of_ne hfeed hlast]
        rcases List.mem_append.1 h with h | h
        · exact ⟨[], List.forall_mem_nil _, by rw [List.append_nil]; exact List.mem_append_left _ h⟩
        · rw [List.mem_singleton.1 h]
          exact ⟨[c], List.forall_mem_singleton.2 hc, List.mem_append_right _ List.mem_cons_self⟩
    obtain ⟨later, hlater, hmem⟩ := ih hmem htail
    rw [List.append_assoc, List.append_assoc] at hmem
    exact ⟨back ++ later, List.forall_mem_append.2 ⟨hback, hlater⟩, hmem⟩

/-- What trimming leaves are lines of the text without some of the blanks around them. -/
theorem exists_mem_pieces_trim {l : Line} (h : l ∈ pieces '\n' (trim cs)) :
    ∃ front back, (∀ c ∈ front, isBlank c = true) ∧ (∀ c ∈ back, isBlank c = true) ∧
      front ++ l ++ back ∈ pieces '\n' cs := by
  obtain ⟨tail, htail, hblank⟩ := dropEndWhile_append isBlank (trimStart cs)
  obtain ⟨back, hback, hmem⟩ := exists_mem_pieces_append_of_blank h hblank
  rw [trim, trimEnd, ← htail] at hmem
  obtain ⟨front, hfront, hmem⟩ := exists_mem_pieces_trimStart hmem
  rw [← List.append_assoc] at hmem
  exact ⟨front, back, hfront, hback, hmem⟩

/-- Visible characters at both ends of a text protect it when more is trimmed behind it. -/
theorem trim_append_of_visible (hne : cs ≠ []) (hhead : ∀ c ∈ cs.head?, isBlank c = false)
    (hlast : ∀ c ∈ cs.getLast?, isBlank c = false) (tail : List Char) :
    trim (cs ++ tail) = cs ++ trimEnd tail := by
  have hstart : trimStart (cs ++ tail) = cs ++ tail := by
    obtain ⟨c, cs, rfl⟩ := List.exists_cons_of_ne_nil hne
    exact trimStart_cons (hhead c rfl) (cs ++ tail)
  have hend : trimEnd cs = cs := by
    have hconcat := trimEnd_concat (hlast _ (List.getLast?_eq_some_getLast hne)) cs.dropLast
    rwa [List.dropLast_concat_getLast] at hconcat
  rw [trim, hstart]
  by_cases htail : trimEnd tail = []
  · rw [trimEnd_append_of_blank (allBlank_of_trimEnd_eq_nil htail), hend, htail, List.append_nil]
  · exact trimEnd_append_of_ne_nil htail

/-- Lines with visible characters at both ends are kept when more lines are trimmed behind them. -/
theorem exists_pieces_trim_append {front : List Line} (hfront : ∀ l ∈ front, '\n' ∉ l)
    (hne : joinLines front ≠ []) (hhead : ∀ c ∈ (joinLines front).head?, isBlank c = false)
    (hlast : ∀ c ∈ (joinLines front).getLast?, isBlank c = false) (back : List Line) :
    ∃ tail, pieces '\n' (trim (joinLines (front ++ back))) = front ++ tail := by
  have hfrontne : front ≠ [] := by
    rintro rfl
    exact hne rfl
  have hpieces : pieces '\n' (joinLines front) = front := by
    rw [pieces_joinLines hfrontne, flatMap_pieces hfront]
  by_cases hback : back = []
  · rw [hback, List.append_nil, trim_eq_self hhead hlast, hpieces]
    exact ⟨[], (List.append_nil _).symm⟩
  · rw [joinLines_append hfrontne hback, trim_append_of_visible hne hhead hlast]
    -- what is left of the lines behind begins with the line feed in front of them
    obtain ⟨rest, hrest⟩ := prefix_of_trimEnd ('\n' :: joinLines back)
    cases hkept : trimEnd ('\n' :: joinLines back) with
    | nil =>
      rw [List.append_nil, hpieces]
      exact ⟨[], (List.append_nil _).symm⟩
    | cons c kept =>
      rw [hkept] at hrest
      obtain rfl : c = '\n' := (List.cons.inj hrest).1
      rw [pieces_append, hpieces]
      exact ⟨_, rfl⟩

/-! ## Texts without separators -/

/-- A text that is part of one line. -/
def IsUnbroken (text : List Char) : Prop := ∀ c ∈ text, isSeparator c = false

instance (text : List Char) : Decidable (IsUnbroken text) :=
  decidable_of_iff (text.all (!isSeparator ·) = true) <| List.all_eq_true.trans <|
    forall₂_congr fun c _ => by rw [Bool.not_eq_true']

variable {ls : List Line}

theorem IsUnbroken.append {front back : List Char} (hfront : IsUnbroken front)
    (hback : IsUnbroken back) : IsUnbroken (front ++ back) :=
  List.forall_mem_append.2 ⟨hfront, hback⟩

theorem IsUnbroken.newline_not_mem (h : IsUnbroken cs) : '\n' ∉ cs := by
  intro hmem
  exact absurd (h '\n' hmem) (by decide)

/-- The lines of a text are unbroken when the part held so far is. -/
theorem isUnbroken_of_mem_linesFrom {held : List Char} (hheld : IsUnbroken held) {l : Line}
    (h : l ∈ linesFrom held cs) : IsUnbroken l := by
  have hreverse {held : List Char} (hheld : IsUnbroken held) : IsUnbroken held.reverse :=
    fun c hc => hheld c (List.mem_reverse.1 hc)
  fun_induction linesFrom held cs with
  | case1 => cases h
  | case2 held hne =>
    rw [List.mem_singleton.1 h]
    exact hreverse hheld
  | case3 held rest ih =>
    rcases List.mem_cons.1 h with rfl | h
    · exact hreverse hheld
    · exact ih (List.forall_mem_nil _) h
  | case4 held c rest _ _ ih =>
    rcases List.mem_cons.1 h with rfl | h
    · exact hreverse hheld
    · exact ih (List.forall_mem_nil _) h
  | case5 held c rest _ hc ih =>
    exact ih (List.forall_mem_cons.2 ⟨Bool.eq_false_iff.2 hc, hheld⟩) h

/-- A line of a text has no separators. -/
theorem isUnbroken_of_mem_lines {l : Line} (h : l ∈ lines cs) : IsUnbroken l :=
  isUnbroken_of_mem_linesFrom (List.forall_mem_nil _) h

/-- A character of joined lines is a line feed or comes from a line. -/
theorem mem_joinLines {c : Char} (h : c ∈ joinLines ls) : c = '\n' ∨ ∃ l ∈ ls, c ∈ l := by
  induction ls with
  | nil => cases h
  | cons l ls ih =>
    by_cases hnil : ls = []
    · rw [hnil, joinLines_singleton] at h
      exact Or.inr ⟨l, List.mem_cons_self, h⟩
    · rw [joinLines_cons l hnil] at h
      rcases List.mem_append.1 h with h | h
      · exact Or.inr ⟨l, List.mem_cons_self, h⟩
      · rcases List.mem_cons.1 h with rfl | h
        · exact Or.inl rfl
        · exact (ih h).imp_right fun ⟨m, hm, hc⟩ => ⟨m, List.mem_cons_of_mem l hm, hc⟩

/-- Lines that are joined and closed by a line feed are found again. -/
theorem lines_joinLines (hne : ls ≠ []) (h : ∀ l ∈ ls, IsUnbroken l) :
    lines (joinLines ls ++ ['\n']) = ls := by
  rw [lines_concat, pieces_joinLines hne, flatMap_pieces fun l hl => (h l hl).newline_not_mem]
  intro c hc hseparator
  rcases mem_joinLines hc with hfeed | ⟨l, hl, hmem⟩
  · exact hfeed
  · rw [h l hl c hmem] at hseparator
    cases hseparator

/-! ## Ends of a trimmed text -/

/-- What is left does not end with a character that was to be dropped. -/
theorem getLast?_dropEndWhile (p : Char → Bool) (cs : List Char) :
    ∀ c ∈ (dropEndWhile p cs).getLast?, p c = false := by
  induction cs with
  | nil =>
    rintro c ⟨⟩
  | cons c cs ih =>
    rw [dropEndWhile]
    split
    · split
      · rintro c ⟨⟩
      · rename_i hc
        rintro _ ⟨⟩
        exact Bool.eq_false_iff.2 hc
    · rename_i hkept
      obtain ⟨d, kept, hcons⟩ := List.exists_cons_of_ne_nil hkept
      rw [hcons] at ih ⊢
      rw [List.getLast?_cons_cons]
      exact ih

theorem getLast?_trim (cs : List Char) : ∀ c ∈ (trim cs).getLast?, isBlank c = false :=
  getLast?_dropEndWhile isBlank (trimStart cs)

/-- A trimmed text begins with a visible character. -/
theorem head?_trim (cs : List Char) : ∀ c ∈ (trim cs).head?, isBlank c = false := by
  intro c hc
  obtain ⟨tail, htail⟩ := prefix_of_trimEnd (trimStart cs)
  cases htrim : trim cs with
  | nil =>
    rw [htrim] at hc
    cases hc
  | cons d kept =>
    rw [htrim] at hc
    cases hc
    rw [← trim, htrim] at htail
    exact eq_false_of_dropWhile htail.symm

/-- A text with a visible character has something left when it is trimmed. -/
theorem trim_ne_nil {c : Char} (hmem : c ∈ cs) (hc : isBlank c = false) : trim cs ≠ [] := by
  intro hnil
  have hblank := allBlank_of_trimEnd_eq_nil hnil
  have hstart : ∀ d ∈ cs, isBlank d = true := by
    intro d hd
    rw [← List.takeWhile_append_dropWhile (p := isBlank) (l := cs)] at hd
    rcases List.mem_append.1 hd with hd | hd
    · exact List.all_eq_true.1 List.all_takeWhile d hd
    · exact hblank d hd
  rw [hstart c hmem] at hc
  cases hc

theorem trim_trim (cs : List Char) : trim (trim cs) = trim cs :=
  trim_eq_self (head?_trim cs) (getLast?_trim cs)

theorem trimEnd_trimEnd (cs : List Char) : trimEnd (trimEnd cs) = trimEnd cs := by
  rcases List.eq_nil_or_concat (trimEnd cs) with hnil | ⟨kept, c, hkept⟩
  · rw [hnil]
    rfl
  · have hlast := getLast?_dropEndWhile isBlank cs
    rw [show dropEndWhile isBlank cs = trimEnd cs from rfl, hkept, List.concat_eq_append] at hlast
    rw [hkept, List.concat_eq_append, trimEnd_concat (hlast c (by rw [List.getLast?_concat]; rfl))]

/-- A trimmed text does not end with a line feed. -/
theorem getLast?_ne_of_trim (h : trim cs = cs) : cs.getLast? ≠ some '\n' := by
  intro hlast
  rw [← h] at hlast
  exact absurd (getLast?_trim cs '\n' hlast) (by decide)

/-- A text that ends with no line feed and has no other separators has the lines between its line
feeds. -/
theorem lines_eq_pieces (hne : cs ≠ []) (h : ∀ c ∈ cs, isSeparator c = true → c = '\n')
    (hlast : cs.getLast? ≠ some '\n') : lines cs = pieces '\n' cs := by
  have hunbroken : ∀ l ∈ lines cs, '\n' ∉ l :=
    fun l hl => (isUnbroken_of_mem_lines hl).newline_not_mem
  have hlines : lines cs ≠ [] := linesFrom_ne_nil (.inr hne)
  have hpieces := pieces_joinLines hlines
  rwa [ joinLines_lines h hlast, flatMap_pieces hunbroken, eq_comm] at hpieces

/-! ## Blocks between empty lines -/

/-- Blocks that are each followed by an empty line are blocks with empty lines between them and
one behind. -/
theorem flatMap_pair {blocks : List (List Char)} (h : blocks ≠ []) :
    (blocks.flatMap fun text => [text, []]) = blocks.intersperse [] ++ [[]] := by
  induction blocks with
  | nil => exact absurd rfl h
  | cons text blocks ih =>
    cases blocks with
    | nil => rfl
    | cons next blocks =>
      rw [List.flatMap_cons, ih (List.cons_ne_nil _ _), List.intersperse_cons_cons]
      rfl

theorem exists_intersperse_cons (text : List Char) (blocks : List (List Char)) :
    ∃ later, (text :: blocks).intersperse [] = text :: later := by
  cases blocks with
  | nil => exact ⟨[], rfl⟩
  | cons next blocks => exact ⟨_, rfl⟩

/-- Blank lines between blocks leave the last block at the end. -/
theorem exists_intersperse_concat (blocks : List (List Char)) (text : List Char) :
    ∃ before, (blocks ++ [text]).intersperse [] = before ++ [text] := by
  induction blocks with
  | nil => exact ⟨[], rfl⟩
  | cons first blocks ih =>
    obtain ⟨before, hbefore⟩ := ih
    obtain ⟨next, later, hnext⟩ := List.exists_cons_of_ne_nil
      (List.append_ne_nil_of_right_ne_nil blocks (List.cons_ne_nil text []))
    rw [hnext] at hbefore
    rw [List.cons_append, hnext, List.intersperse_cons_cons, hbefore]
    exact ⟨first :: [] :: before, rfl⟩

/-- Blocks with empty lines around them are one block when they are trimmed together. -/
theorem trim_blocks {blocks : List (List Char)} (hne : blocks ≠ [])
    (hvisible : ∀ text ∈ blocks, text ≠ [] ∧ trim text = text) :
    trim (joinLines ([] :: (blocks.flatMap fun text => [text, []]).flatMap (pieces '\n'))) =
      joinLines (blocks.intersperse []) := by
  have hinner : blocks.intersperse [] ≠ [] := by
    obtain ⟨text, later, rfl⟩ := List.exists_cons_of_ne_nil hne
    obtain ⟨rest, hrest⟩ := exists_intersperse_cons text later
    rw [hrest]
    exact List.cons_ne_nil _ _
  -- The first and the last block are trimmed, so the joined text begins and ends visibly.
  have hhead : ∀ c ∈ (joinLines (blocks.intersperse [])).head?, isBlank c = false := by
    obtain ⟨text, later, rfl⟩ := List.exists_cons_of_ne_nil hne
    obtain ⟨rest, hrest⟩ := exists_intersperse_cons text later
    obtain ⟨hfirst, htrim⟩ := hvisible text List.mem_cons_self
    obtain ⟨c, text, rfl⟩ := List.exists_cons_of_ne_nil hfirst
    rw [hrest, head?_joinLines]
    rintro _ ⟨⟩
    exact head?_trim (c :: text) c (by rw [htrim]; rfl)
  have hlast : ∀ c ∈ (joinLines (blocks.intersperse [])).getLast?, isBlank c = false := by
    obtain ⟨before, text, rfl⟩ : ∃ before text, blocks = before ++ [text] :=
      ⟨_, _, (List.dropLast_concat_getLast hne).symm⟩
    obtain ⟨rest, hrest⟩ := exists_intersperse_concat before text
    obtain ⟨hfirst, htrim⟩ := hvisible text (List.mem_append_right _ List.mem_cons_self)
    obtain ⟨start, c, rfl⟩ : ∃ start c, text = start ++ [c] :=
      ⟨_, _, (List.dropLast_concat_getLast hfirst).symm⟩
    rw [hrest, getLast?_joinLines]
    rintro _ ⟨⟩
    exact getLast?_trim (start ++ [c]) c (by rw [htrim, List.getLast?_concat]; rfl)
  have hfeed : ∀ c ∈ ['\n'], isBlank c = true := List.forall_mem_singleton.2 (by decide)
  rw [flatMap_pair hne, joinLines_cons, joinLines_flatMap_pieces, joinLines_concat _ hinner,
    List.nil_append, trim_cons_of_blank (by decide), trim_append_of_blank hfeed,
    trim_eq_self hhead hlast]
  rw [List.flatMap_append]
  exact List.append_ne_nil_of_right_ne_nil _ (by decide)

end HeaderApi.Text
