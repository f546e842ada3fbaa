import HeaderApi.Proofs.MarkSpacing
import HeaderApi.Proofs.VisibleTexts

/-!
# Stable spellings

The spelling of a type that is brought into its one form stays as it is.  Such spellings are those
with single spaces in which one space stands between a word and a mark behind it, and nothing
between two marks.
-/

namespace HeaderApi.Spelling

open Text

variable {cs front gap rest : List Char} {c d x m : Char}

/-! ## Spaces between words and marks -/

/-- With spaces in front of marks none touches a word. -/
theorem isChain_spaceMarks (cs : List Char) : (spaceMarks cs).IsChain Apart := by
  fun_induction spaceMarks cs with
  | case1 => exact .nil
  | case2 c => exact .singleton c
  | case3 c d rest hmark ih =>
    refine List.isChain_cons_cons.2 ⟨fun hspace => absurd hspace (by decide), ?_⟩
    exact List.isChain_cons.2 ⟨fun e _ _ => by decide, ih⟩
  | case4 c d rest hmark ih =>
    refine List.isChain_cons.2 ⟨fun e he hmarked => ?_, ih⟩
    rw [head?_spaceMarks] at he
    obtain rfl : d = e := Option.some.inj he
    exact Bool.eq_false_iff.2 fun hword => hmark (by rw [hword, hmarked]; rfl)

/-- Dropping the spaces between marks brings no mark next to a word. -/
theorem isChain_joinMarks (h : cs.IsChain Apart) : (joinMarks cs).IsChain Apart := by
  fun_induction joinMarks cs with
  | case1 c d rest hmarks ih =>
    refine List.isChain_cons.2 ⟨fun e _ _ => ?_, ih h.tail.tail⟩
    exact isWord_of_isMark (Bool.and_eq_true_iff.1 hmarks).1
  | case2 c d rest hmarks ih =>
    obtain ⟨hhead, hrest⟩ := List.isChain_cons.1 h
    exact List.isChain_cons.2 ⟨head?_joinMarks (' ' :: d :: rest) ▸ hhead, ih hrest⟩
  | case3 c rest hshape ih =>
    obtain ⟨hhead, hrest⟩ := List.isChain_cons.1 h
    exact List.isChain_cons.2 ⟨head?_joinMarks rest ▸ hhead, ih hrest⟩
  | case4 => exact h

/-! ## Spaces between marks -/

/-- No space stands between two marks. -/
def IsJoined (cs : List Char) : Prop :=
  ∀ front x m rest, cs = front ++ x :: ' ' :: m :: rest → isMark x = true → isMark m = false

theorem IsJoined.tail (h : IsJoined (c :: cs)) : IsJoined cs := fun front x m rest hcs =>
  h (c :: front) x m rest (by rw [hcs]; rfl)

/-- One more character in front makes no difference unless a space and a mark follow it. -/
theorem IsJoined.cons (h : IsJoined cs)
    (hc : ∀ m rest, cs = ' ' :: m :: rest → isMark c = true → isMark m = false) :
    IsJoined (c :: cs) := by
  rintro (_ | ⟨d, front⟩) x m rest hcs
  · obtain ⟨rfl, hrest⟩ := List.cons.inj hcs
    exact hc m rest hrest
  · exact h front x m rest (List.cons.inj hcs).2

/-- When marks are joined no space is left between two of them. -/
theorem isJoined_joinMarks (cs : List Char) : IsJoined (joinMarks cs) := by
  fun_induction joinMarks cs with
  | case1 c d rest hmarks ih =>
    refine ih.cons fun m tail hjoin => ?_
    -- a mark follows, and no space
    have hhead := head?_joinMarks (d :: rest)
    rw [hjoin] at hhead
    obtain rfl : ' ' = d := Option.some.inj hhead
    exact absurd (Bool.and_eq_true_iff.1 hmarks).2 (by decide)
  | case2 c d rest hmarks ih =>
    refine ih.cons fun m tail hjoin hc => ?_
    rw [joinMarks_cons_of_not_isMark (by decide)] at hjoin
    have hhead := head?_joinMarks (d :: rest)
    rw [(List.cons.inj hjoin).2] at hhead
    obtain rfl : m = d := Option.some.inj hhead
    exact Bool.eq_false_iff.2 fun hm => hmarks (by rw [hc, hm]; rfl)
  | case3 c rest hshape ih =>
    refine ih.cons fun m tail hjoin => ?_
    -- a space that follows is the last character
    have hhead := head?_joinMarks rest
    rw [hjoin] at hhead
    obtain ⟨later, rfl⟩ := List.head?_eq_some_iff.1 hhead.symm
    cases later with
    | nil =>
      rw [joinMarks_cons_of_not_isMark (by decide)] at hjoin
      cases (List.cons.inj hjoin).2
    | cons d later => exact (hshape d later rfl).elim
  | case4 =>
    intro front x m rest h
    simp at h

/-- Marks that are joined stay as they are. -/
theorem joinMarks_eq_self (h : IsJoined cs) : joinMarks cs = cs := by
  fun_induction joinMarks cs with
  | case1 c d rest hmarks ih =>
    obtain ⟨hc, hd⟩ := Bool.and_eq_true_iff.1 hmarks
    rw [h [] c d rest rfl hc] at hd
    cases hd
  | case2 c d rest hmarks ih => rw [ih h.tail]
  | case3 c rest hshape ih => rw [ih h.tail]
  | case4 => rfl

/-! ## Visible characters -/

/-- Spaces in front of marks are all that is added. -/
theorem visible_spaceMarks (cs : List Char) : visible (spaceMarks cs) = visible cs := by
  fun_induction spaceMarks cs with
  | case1 => rfl
  | case2 c => rfl
  | case3 c d rest hmark ih =>
    refine visible_cons_congr c ?_
    rw [visible_cons_of_blank (c := ' ') (by decide), ih]
  | case4 c d rest hmark ih => exact visible_cons_congr c ih

/-- Spaces between marks are all that is dropped. -/
theorem visible_joinMarks (cs : List Char) : visible (joinMarks cs) = visible cs := by
  fun_induction joinMarks cs with
  | case1 c d rest hmarks ih =>
    refine visible_cons_congr c ?_
    rw [ih, visible_cons_of_blank (c := ' ') (by decide)]
  | case2 c d rest hmarks ih => exact visible_cons_congr c ih
  | case3 c rest hshape ih => exact visible_cons_congr c ih
  | case4 => rfl

/-- Only blanks change when a type is brought into its one spelling. -/
theorem visible_normalize (cs : List Char) : visible (normalize cs) = visible cs := by
  rw [normalize, visible_joinMarks, visible_spaceMarks, visible_collapse]

/-! ## Stable spellings -/

/-- A spelling with single spaces, none of them at its ends, in which exactly one space stands
between a word and a mark behind it, and nothing between two marks. -/
structure IsStable (cs : List Char) : Prop where
  tight : IsTight cs
  spaced : ∀ front c gap m rest, cs = front ++ c :: (gap ++ m :: rest) → allBlank gap = true →
    isWord c = true → isMark m = true → gap = [' ']
  joined : ∀ front x gap m rest, cs = front ++ x :: (gap ++ m :: rest) → allBlank gap = true →
    isMark x = true → isMark m = true → gap = []

/-- Where single spaces stand, the blanks between two characters are one space, if any. -/
theorem eq_space_of_isTight (h : IsTight (front ++ c :: (gap ++ d :: rest)))
    (hgap : allBlank gap = true) : gap = [] ∨ gap = [' '] := by
  cases gap with
  | nil => exact .inl rfl
  | cons b gap =>
    obtain ⟨hb, hgap⟩ := Bool.and_eq_true_iff.1 hgap
    obtain rfl := h.space b (by simp) hb
    cases gap with
    | nil => exact .inr rfl
    | cons b gap =>
      -- two blanks do not meet
      obtain ⟨hb, -⟩ := Bool.and_eq_true_iff.1 hgap
      have hmeet : [' ', b].IsChain fun c d => isBlank c = false ∨ isBlank d = false :=
        h.apart.infix ⟨front ++ [c], gap ++ d :: rest, by simp⟩
      rcases (List.isChain_cons_cons.1 hmeet).1 with hspace | hspace
      · cases hspace
      · rw [hb] at hspace
        cases hspace

/-- A stable spelling has single spaces, one in front of each mark behind a word, and none between
marks. -/
theorem isStable_iff : IsStable cs ↔ IsTight cs ∧ cs.IsChain Apart ∧ IsJoined cs := by
  constructor
  · intro h
    refine ⟨h.tight, ?_, ?_⟩
    · refine List.isChain_iff_forall_rel_of_append_cons_cons.2 fun {c m front rest} hcs hm => ?_
      refine Bool.eq_false_iff.2 fun hc => ?_
      cases h.spaced front c [] m rest hcs rfl hc hm
    · intro front x m rest hcs hx
      refine Bool.eq_false_iff.2 fun hm => ?_
      cases h.joined front x [' '] m rest hcs rfl hx hm
  · rintro ⟨htight, hapart, hjoined⟩
    refine ⟨htight, ?_, ?_⟩
    · rintro front c gap m rest rfl hgap hc hm
      refine (eq_space_of_isTight htight hgap).resolve_left ?_
      rintro rfl
      have hmeet : [c, m].IsChain Apart := hapart.infix ⟨front, rest, by simp⟩
      rw [(List.isChain_cons_cons.1 hmeet).1 hm] at hc
      cases hc
    · rintro front x gap m rest rfl hgap hx hm
      refine (eq_space_of_isTight htight hgap).resolve_right ?_
      rintro rfl
      rw [hjoined front x m rest rfl hx] at hm
      cases hm

theorem isStable_normalize (cs : List Char) : IsStable (normalize cs) :=
  isStable_iff.2 ⟨isTight_normalize cs, isChain_joinMarks (isChain_spaceMarks _),
    isJoined_joinMarks _⟩

/-- The stable spellings are those that are in their one form already. -/
theorem normalize_eq_self_iff : normalize cs = cs ↔ IsStable cs := by
  constructor
  · intro h
    exact h ▸ isStable_normalize cs
  · intro h
    obtain ⟨htight, hapart, hjoined⟩ := isStable_iff.1 h
    rw [normalize, collapse_eq_self_iff.2 htight, spaceMarks_of_isChain hapart,
      joinMarks_eq_self hjoined]

/-- **The spelling of a type is stable.**  Bringing it into its one form again changes nothing, the
visible characters are those of the type, and it has single spaces, one between a word and a mark
behind it and none between marks. -/
theorem normalize_stable (cs : List Char) :
    normalize (normalize cs) = normalize cs ∧ visible (normalize cs) = visible cs ∧
      IsStable (normalize cs) :=
  ⟨normalize_eq_self_iff.2 (isStable_normalize cs), visible_normalize cs, isStable_normalize cs⟩

example : normalize "\tconst  char*\n* const* & x".toList = "const char ** const *& x".toList := by
  decide

end HeaderApi.Spelling
