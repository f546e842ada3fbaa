import HeaderApi.Proofs.Blocks
import HeaderApi.Proofs.PlainTypes

/-!
# Texts with single spaces

A text in which single spaces separate the words is what is left when the blanks of a text are
unified.  The spelling of a type is such a text.
-/

namespace HeaderApi

open Text

/-! ## Single spaces -/

namespace Text

/-- A text that does not begin with a blank and in which every other blank is a space of its own. -/
structure IsSpaced (cs : List Char) : Prop where
  head : ∀ c ∈ cs.head?, isBlank c = false
  apart : cs.IsChain fun c d => isBlank c = false ∨ isBlank d = false
  space : ∀ c ∈ cs, isBlank c = true → c = ' '

/-- Such a text that does not end with a blank either. -/
structure IsTight (cs : List Char) : Prop extends IsSpaced cs where
  last : ∀ c ∈ cs.getLast?, isBlank c = false

section Spaced

variable {cs tail front text : List Char}

theorem isTight_nil : IsTight [] := ⟨⟨by simp, .nil, by simp⟩, by simp⟩

/-- A text of visible characters is tight. -/
theorem isTight_of_visible (h : ∀ c ∈ cs, isBlank c = false) : IsTight cs where
  head c hc := h c (List.mem_of_mem_head? hc)
  apart := (List.pairwise_of_forall_mem_list fun c hc d _ => .inl (h c hc)).isChain
  space c hc hblank := absurd hblank (by simp [h c hc])
  last c hc := h c (List.mem_of_mem_getLast? hc)

/-- Texts with single spaces next to each other make one. -/
theorem IsSpaced.append (hfront : IsSpaced front) (hcs : IsSpaced cs) : IsSpaced (front ++ cs) where
  head := by
    cases front with
    | nil => exact hcs.head
    | cons c front => exact hfront.head
  apart := List.isChain_append.2 ⟨hfront.apart, hcs.apart, fun _ _ d hd => .inr (hcs.head d hd)⟩
  space c hc := (List.mem_append.1 hc).elim (hfront.space c) (hcs.space c)

/-- Tight texts next to each other make one. -/
theorem IsTight.append (hfront : IsTight front) (hcs : IsTight cs) : IsTight (front ++ cs) where
  toIsSpaced := hfront.toIsSpaced.append hcs.toIsSpaced
  last := by
    rw [List.getLast?_append]
    cases hlast : cs.getLast? with
    | none => exact hfront.last
    | some d => simpa using hcs.last d hlast

theorem IsSpaced.concat {c : Char} (hc : isBlank c = false) (hfront : IsSpaced front) :
    IsTight (front ++ [c]) where
  toIsSpaced := hfront.append (isTight_of_visible (by simpa using hc)).toIsSpaced
  last := by simpa using hc

/-- A space may stand behind a text that does not end with one. -/
theorem IsTight.append_space (hne : front ≠ []) (hfront : IsTight front) (hcs : IsSpaced cs) :
    IsSpaced (front ++ ' ' :: cs) where
  head := by
    obtain ⟨c, front, rfl⟩ := List.exists_cons_of_ne_nil hne
    exact hfront.head
  apart := by
    have hspace : (' ' :: cs).IsChain fun c d => isBlank c = false ∨ isBlank d = false :=
      List.isChain_cons.2 ⟨fun d hd => .inr (hcs.head d hd), hcs.apart⟩
    exact List.isChain_append.2 ⟨hfront.apart, hspace, fun c hc _ _ => .inl (hfront.last c hc)⟩
  space c hc := by
    rcases List.mem_append.1 hc with hc | hc
    · exact hfront.space c hc
    · rcases List.mem_cons.1 hc with rfl | hc
      · exact fun _ => rfl
      · exact hcs.space c hc

/-- Tight texts with a space between them make one. -/
theorem IsTight.join (hne : front ≠ []) (hcs : cs ≠ []) (hfront : IsTight front)
    (htight : IsTight cs) :
    IsTight (front ++ ' ' :: cs) where
  toIsSpaced := hfront.append_space hne htight.toIsSpaced
  last := by
    rw [List.getLast?_append_of_ne_nil _ (List.cons_ne_nil ' ' cs),
      ← List.singleton_append, List.getLast?_append_of_ne_nil _ hcs]
    exact htight.last

theorem infix_trim (cs : List Char) : trim cs <:+: cs :=
  (prefix_of_trimEnd (trimStart cs)).isInfix.trans (List.dropWhile_suffix isBlank).isInfix

/-- Without the blanks around it a piece of such a text is one. -/
theorem IsSpaced.trim_of_infix (h : IsSpaced text) (hpiece : cs <:+: text) : IsTight (trim cs) where
  head := head?_trim cs
  apart := h.apart.infix ((infix_trim cs).trans hpiece)
  space c hc := h.space c (((infix_trim cs).trans hpiece).subset hc)
  last := getLast?_trim cs

theorem IsTight.trim_eq (h : IsTight cs) : trim cs = cs := trim_eq_self h.head h.last

end Spaced

/-! ## Words one space apart -/

section Collapsed

variable {cs : List Char} {ws : List (List Char)}

/-- A word is not empty and has no blanks in it. -/
theorem mem_words {w : List Char} (h : w ∈ words cs) : w ≠ [] ∧ ∀ c ∈ w, isBlank c = false := by
  obtain ⟨hmem, hne⟩ := List.mem_filter.1 h
  refine ⟨by simpa using hne, ?_⟩
  clear h hne
  induction cs generalizing w with
  | nil => simp_all
  | cons c cs ih =>
    rw [splitBlanks] at hmem
    split at hmem
    · rcases List.mem_cons.1 hmem with rfl | hmem
      · simp
      · exact ih hmem
    · rename_i hc
      cases hsplit : splitBlanks cs with
      | nil => exact absurd hsplit (splitBlanks_ne_nil cs)
      | cons piece pieces =>
        rw [hsplit] at hmem ih
        rcases List.mem_cons.1 hmem with rfl | hmem
        · exact List.forall_mem_cons.2 ⟨by simpa using hc, ih List.mem_cons_self⟩
        · exact ih (List.mem_cons_of_mem piece hmem)

/-- Words with spaces between them are tight. -/
theorem isTight_intercalate (h : ∀ w ∈ ws, w ≠ [] ∧ ∀ c ∈ w, isBlank c = false) :
    IsTight ([' '].intercalate ws) := by
  induction ws with
  | nil => exact isTight_nil
  | cons w ws ih =>
    obtain ⟨⟨hne, hw⟩, hws⟩ := List.forall_mem_cons.1 h
    cases ws with
    | nil =>
      rw [List.intercalate_singleton]
      exact isTight_of_visible hw
    | cons v ws =>
      obtain ⟨d, v, rfl⟩ := List.exists_cons_of_ne_nil (hws v List.mem_cons_self).1
      have hlater : [' '].intercalate ((d :: v) :: ws) ≠ [] := by
        cases ws <;> exact List.cons_ne_nil d _
      rw [List.intercalate_cons_cons, List.append_assoc]
      exact (isTight_of_visible hw).join hne hlater (ih hws)

/-- Unifying the blanks of a text leaves single spaces. -/
theorem isTight_collapse (cs : List Char) : IsTight (collapse cs) :=
  isTight_intercalate fun _ => mem_words

/-- An end of a tight text is tight when it begins with a visible character. -/
theorem IsTight.of_suffix {rest : List Char} (h : IsTight cs) (hsuffix : rest <:+ cs)
    (hrest : ∀ c ∈ rest.head?, isBlank c = false) : IsTight rest where
  head := hrest
  apart := h.apart.suffix hsuffix
  space c hc := h.space c (hsuffix.subset hc)
  last := by
    obtain ⟨front, rfl⟩ := hsuffix
    by_cases hnil : rest = []
    · simp [hnil]
    · rw [← List.getLast?_append_of_ne_nil front hnil]
      exact h.last

/-- A text with single spaces is made up of words. -/
theorem IsTight.exists_words : ∀ {cs : List Char}, IsTight cs →
    ∃ ws, (∀ w ∈ ws, w ≠ [] ∧ ∀ c ∈ w, isBlank c = false) ∧ cs = [' '].intercalate ws
  | [], _ => ⟨[], by simp, rfl⟩
  | [c], h => ⟨[[c]], by simpa using h.head, by simp⟩
  | c :: d :: rest, h => by
    have hc : isBlank c = false := h.head c rfl
    cases hd : isBlank d with
    | false =>
      -- The first word goes on.
      have hlater := h.of_suffix (List.suffix_cons c (d :: rest)) (by simpa using hd)
      obtain ⟨ws, hws, hrest⟩ := IsTight.exists_words hlater
      cases ws with
      | nil => cases hrest
      | cons w ws =>
        obtain ⟨hw, hws⟩ := List.forall_mem_cons.1 hws
        refine ⟨(c :: w) :: ws,
          List.forall_mem_cons.2 ⟨⟨List.cons_ne_nil c w, ?_⟩, hws⟩, ?_⟩
        · exact List.forall_mem_cons.2 ⟨hc, hw.2⟩
        · rw [hrest]
          cases ws <;> rfl
    | true =>
      -- The first word ends, and another one follows behind the space.
      obtain rfl := h.space d (by simp) hd
      have hne : rest ≠ [] := by
        rintro rfl
        exact absurd (h.last ' ' rfl) (by decide)
      have hhead : ∀ e ∈ rest.head?, isBlank e = false := fun e he =>
        ((List.isChain_cons.1 h.apart.tail).1 e he).resolve_left (by decide)
      have hlater := h.of_suffix ⟨[c, ' '], rfl⟩ hhead
      obtain ⟨ws, hws, hwords⟩ := IsTight.exists_words hlater
      have hwsne : ws ≠ [] := by
        rintro rfl
        exact hne hwords
      refine ⟨[c] :: ws, List.forall_mem_cons.2 ⟨by simpa using hc, hws⟩, ?_⟩
      rw [List.intercalate_cons_of_ne_nil hwsne, ← hwords]
      rfl

/-- The blanks of a text with single spaces are unified already. -/
theorem collapse_eq_self_iff : collapse cs = cs ↔ IsTight cs := by
  constructor
  · intro h
    exact h ▸ isTight_collapse cs
  · intro h
    obtain ⟨ws, hws, rfl⟩ := h.exists_words
    exact collapse_intercalate hws

/-- A text with single spaces is tight when its end is trimmed. -/
theorem IsSpaced.trimEnd (h : IsSpaced cs) : IsTight (trimEnd cs) where
  head c hc := by
    obtain ⟨tail, htail⟩ := prefix_of_trimEnd cs
    refine h.head c ?_
    rw [← htail, List.head?_append, Option.mem_def.1 hc]
    rfl
  apart := h.apart.prefix (prefix_of_trimEnd cs)
  space c hc := h.space c ((prefix_of_trimEnd cs).subset hc)
  last := getLast?_dropEndWhile isBlank cs

/-- Unifying the blanks of such a text drops the one at its end. -/
theorem IsSpaced.collapse_eq (h : IsSpaced cs) : collapse cs = Text.trimEnd cs := by
  rw [← collapse_eq_self_iff.2 h.trimEnd, collapse, collapse, words_trimEnd]

end Collapsed

end Text

/-! ## Spellings of types -/

namespace Spelling

variable {cs : List Char}

/-- The numbers of the blanks. -/
def blankCodes : List Nat :=
  List.range' 9 5 ++ List.range' 28 5 ++ [0x85, 0xA0, 0x1680] ++ List.range' 0x2000 11 ++
    [0x2028, 0x2029, 0x202F, 0x205F, 0x3000]

/-- No blank belongs to a word. -/
theorem isBlank_of_isWord {c : Char} (h : isWord c = true) : isBlank c = false := by
  have hcodes : ∀ n ∈ blankCodes, isWord (Char.ofNat n) = false := by decide +kernel
  refine Bool.eq_false_iff.2 fun hblank => ?_
  have hmem : c.toNat ∈ blankCodes := by
    simp only [isBlank, Bool.or_eq_true, Bool.and_eq_true, decide_eq_true_eq, beq_iff_eq] at hblank
    simp only [blankCodes, List.mem_append, List.mem_range'_1, List.mem_cons, List.not_mem_nil,
      or_false]
    omega
  have hword := hcodes c.toNat hmem
  rw [Char.ofNat_toNat, h] at hword
  cases hword

theorem head?_spaceMarks (cs : List Char) : (spaceMarks cs).head? = cs.head? := by
  fun_cases spaceMarks cs <;> rfl

/-- Spaces in front of marks leave the last character where it is. -/
theorem getLast?_spaceMarks (cs : List Char) : (spaceMarks cs).getLast? = cs.getLast? := by
  fun_induction spaceMarks cs with
  | case1 => rfl
  | case2 c => rfl
  | case3 c d rest hmark ih => simp only [List.getLast?_cons, ih, Option.getD_some]
  | case4 c d rest hmark ih => simp only [List.getLast?_cons, ih]

/-- Spaces are all that is added. -/
theorem mem_spaceMarks {c : Char} (h : c ∈ spaceMarks cs) : c ∈ cs ∨ c = ' ' := by
  fun_induction spaceMarks cs with
  | case1 => exact .inl h
  | case2 d => exact .inl h
  | case3 d e rest hmark ih =>
    simp only [List.mem_cons] at h ih ⊢
    tauto
  | case4 d e rest hmark ih =>
    simp only [List.mem_cons] at h ih ⊢
    tauto

/-- Putting spaces in front of marks leaves single spaces. -/
theorem isTight_spaceMarks (h : IsTight cs) : IsTight (spaceMarks cs) where
  head := head?_spaceMarks cs ▸ h.head
  apart := by
    have happart := h.apart
    clear h
    fun_induction spaceMarks cs with
    | case1 => exact happart
    | case2 c => exact happart
    | case3 c d rest hmark ih =>
      obtain ⟨hc, hd⟩ := Bool.and_eq_true_iff.1 hmark
      refine List.isChain_cons_cons.2 ⟨.inl (isBlank_of_isWord hc), List.isChain_cons.2 ⟨?_, ?_⟩⟩
      · rw [head?_spaceMarks]
        intro e he
        obtain rfl : d = e := by simpa using he
        exact .inr (isBlank_of_isMark hd)
      · exact ih happart.tail
    | case4 c d rest hmark ih =>
      obtain ⟨hcd, hrest⟩ := List.isChain_cons_cons.1 happart
      refine List.isChain_cons.2 ⟨?_, ih hrest⟩
      rw [head?_spaceMarks]
      simpa using hcd
  space c hc hblank := (mem_spaceMarks hc).elim (fun hc => h.space c hc hblank) id
  last := getLast?_spaceMarks cs ▸ h.last

theorem head?_joinMarks (cs : List Char) : (joinMarks cs).head? = cs.head? := by
  fun_cases joinMarks cs <;> rfl

/-- Joining marks leaves the last character where it is. -/
theorem getLast?_joinMarks (cs : List Char) : (joinMarks cs).getLast? = cs.getLast? := by
  fun_induction joinMarks cs with
  | case1 c d rest hmark ih => simp only [List.getLast?_cons, ih, Option.getD_some]
  | case2 c d rest hmark ih => simp only [List.getLast?_cons, ih]
  | case3 c rest hrest ih => simp only [List.getLast?_cons, ih]
  | case4 => rfl

/-- Joining marks adds nothing. -/
theorem mem_joinMarks {c : Char} (h : c ∈ joinMarks cs) : c ∈ cs := by
  fun_induction joinMarks cs with
  | case1 d e rest hmark ih =>
    simp only [List.mem_cons] at h ih ⊢
    tauto
  | case2 d e rest hmark ih =>
    simp only [List.mem_cons] at h ih ⊢
    tauto
  | case3 d rest hrest ih =>
    simp only [List.mem_cons] at h ⊢
    tauto
  | case4 => exact h

/-- Dropping the spaces between marks leaves single spaces. -/
theorem isTight_joinMarks (h : IsTight cs) : IsTight (joinMarks cs) where
  head := head?_joinMarks cs ▸ h.head
  apart := by
    have happart := h.apart
    clear h
    fun_induction joinMarks cs with
    | case1 c d rest hmark ih =>
      refine List.isChain_cons.2 ⟨fun e _ => .inl ?_, ih happart.tail.tail⟩
      exact isBlank_of_isMark (Bool.and_eq_true_iff.1 hmark).1
    | case2 c d rest hmark ih =>
      obtain ⟨hhead, hrest⟩ := List.isChain_cons.1 happart
      exact List.isChain_cons.2 ⟨head?_joinMarks (' ' :: d :: rest) ▸ hhead, ih hrest⟩
    | case3 c rest hne ih =>
      obtain ⟨hhead, hrest⟩ := List.isChain_cons.1 happart
      exact List.isChain_cons.2 ⟨head?_joinMarks rest ▸ hhead, ih hrest⟩
    | case4 => exact happart
  space c hc := h.space c (mem_joinMarks hc)
  last := getLast?_joinMarks cs ▸ h.last

/-- The one spelling of a type has single spaces. -/
theorem isTight_normalize (cs : List Char) : IsTight (normalize cs) :=
  isTight_joinMarks (isTight_spaceMarks (isTight_collapse cs))

end Spelling

end HeaderApi
