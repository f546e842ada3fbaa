import HeaderApi.Proofs.Texts

/-!
# Visible characters

What trimming a text, joining lines with blanks and unifying the blanks of a text leave unchanged:
the characters that are not blank.
-/

namespace HeaderApi.Text

variable {cs rest : List Char} {c : Char}

/-- The visible characters of a text. -/
def visible (cs : List Char) : List Char := cs.filter fun c => !isBlank c

@[simp] theorem visible_nil : visible [] = [] := rfl

theorem visible_append (cs rest : List Char) : visible (cs ++ rest) = visible cs ++ visible rest :=
  List.filter_append ..

theorem visible_cons (h : isBlank c = false) (cs : List Char) :
    visible (c :: cs) = c :: visible cs := List.filter_cons_of_pos (by rw [h]; rfl)

theorem visible_cons_of_blank (h : isBlank c = true) (cs : List Char) :
    visible (c :: cs) = visible cs := List.filter_cons_of_neg (by rw [h]; exact Bool.false_ne_true)

/-- One more character in front of two texts makes no difference to what is visible of them. -/
theorem visible_cons_congr (c : Char) (h : visible cs = visible rest) :
    visible (c :: cs) = visible (c :: rest) := by
  rw [← List.singleton_append, visible_append, h, ← visible_append, List.singleton_append]

theorem visible_eq_nil_iff : visible cs = [] ↔ allBlank cs = true := by
  simp [visible, allBlank]

/-- Trimming the front leaves what is visible. -/
theorem visible_trimStart (cs : List Char) : visible (trimStart cs) = visible cs := by
  have hblank : visible (cs.takeWhile isBlank) = [] :=
    visible_eq_nil_iff.2 List.all_takeWhile
  conv_rhs => rw [← List.takeWhile_append_dropWhile (p := isBlank) (l := cs)]
  rw [visible_append, hblank]
  rfl

/-- Trimming the end leaves what is visible. -/
theorem visible_trimEnd (cs : List Char) : visible (trimEnd cs) = visible cs := by
  obtain ⟨tail, hcs, htail⟩ := dropEndWhile_append isBlank cs
  have hblank : visible tail = [] := visible_eq_nil_iff.2 (List.all_eq_true.2 htail)
  conv_rhs => rw [hcs, visible_append, hblank, List.append_nil]
  rfl

@[simp] theorem visible_trim (cs : List Char) : visible (trim cs) = visible cs := by
  rw [trim, visible_trimEnd, visible_trimStart]

/-- Lines have the same visible characters, whichever blank joins them. -/
theorem visible_intercalate (hblank : isBlank c = true) (ls : List Line) :
    visible ([c].intercalate ls) = visible ls.flatten := by
  induction ls with
  | nil => rfl
  | cons l ls ih =>
    cases ls with
    | nil => rw [List.intercalate_singleton, List.flatten_singleton]
    | cons l' ls =>
      rw [List.intercalate_cons_cons, List.append_assoc, visible_append, List.singleton_append,
        visible_cons_of_blank hblank, ih, ← visible_append]
      rfl

/-- The pieces between blanks are what is visible. -/
theorem flatten_splitBlanks (cs : List Char) : (splitBlanks cs).flatten = visible cs := by
  induction cs with
  | nil => rfl
  | cons c cs ih =>
    rw [splitBlanks]
    split
    · rename_i hblank
      rw [List.flatten_cons, ih, visible_cons_of_blank hblank, List.nil_append]
    · rename_i hblank
      rw [visible_cons (Bool.eq_false_iff.2 hblank), ← ih]
      obtain ⟨piece, pieces, hsplit⟩ := List.exists_cons_of_ne_nil (splitBlanks_ne_nil cs)
      rw [hsplit]
      rfl

/-- Unifying blanks leaves what is visible. -/
theorem visible_collapse (cs : List Char) : visible (collapse cs) = visible cs := by
  rw [collapse, visible_intercalate (by decide), words, List.flatten_filter_ne_nil,
    flatten_splitBlanks]
  simp [visible]

theorem visible_joinLines (ls : List Line) : visible (joinLines ls) = visible ls.flatten :=
  visible_intercalate (by decide) ls

/-- Changes of lines that leave what is visible of each leave what is visible of all. -/
theorem visible_flatten_map {f g : Line → Line} {ls : List Line}
    (h : ∀ l ∈ ls, visible (f l) = visible (g l)) :
    visible (ls.map f).flatten = visible (ls.map g).flatten := by
  induction ls with
  | nil => rfl
  | cons l ls ih =>
    obtain ⟨hl, hls⟩ := List.forall_mem_cons.1 h
    rw [List.map_cons, List.map_cons, List.flatten_cons, List.flatten_cons, visible_append,
      visible_append, hl, ih hls]

/-- The first visible character is where the blanks at the front end. -/
theorem exists_trimStart_of_visible (h : visible cs = c :: rest) :
    ∃ tail, trimStart cs = c :: tail ∧ visible tail = rest := by
  obtain ⟨front, tail, rfl, hfront, hc, hrest⟩ := List.filter_eq_cons_iff.1 h
  have hblank : ∀ d ∈ front, isBlank d = true := fun d hd => by simpa using hfront d hd
  refine ⟨tail, ?_, hrest⟩
  rw [trimStart_append_of_blank hblank, trimStart_cons (by simpa using hc)]

theorem exists_append_of_visible {first later : List Char} (h : visible cs = first ++ later) :
    ∃ front tail, cs = front ++ tail ∧ visible front = first ∧ visible tail = later :=
  List.filter_eq_append_iff.1 h

/-- The cut at a visible mark, as the visible characters tell it. -/
theorem exists_cutAt_of_visible {mark : Char} {first later : List Char}
    (hmark : isBlank mark = false) (hfirst : mark ∉ first)
    (h : visible cs = first ++ mark :: later) :
    ∃ front tail, cutAt mark cs = some (front, tail) ∧ visible tail = later := by
  obtain ⟨front, behind, rfl, rfl, hbehind⟩ := exists_append_of_visible h
  obtain ⟨gap, tail, rfl, hgap, -, htail⟩ := List.filter_eq_cons_iff.1 hbehind
  refine ⟨front ++ gap, tail, cutAt_eq_some_iff.2 ⟨(List.append_assoc ..).symm, ?_⟩, htail⟩
  rw [List.mem_append, not_or]
  constructor
  · exact fun hmem => hfirst (List.mem_filter.2 ⟨hmem, by rw [hmark]; rfl⟩)
  · exact fun hmem => hgap mark hmem (by rw [hmark]; rfl)

end HeaderApi.Text
