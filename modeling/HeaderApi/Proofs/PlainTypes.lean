import HeaderApi.Declarator
import HeaderApi.Proofs.Texts
import Mathlib.Data.List.Chain

/-!
# Types of plain words

A type of identifiers one space apart, behind which one space and a run of pointer and reference
marks may stand, is in its one spelling.  A declaration leaves its words in front, each with a space
behind it, and moves its marks to the name.
-/

namespace HeaderApi

open Text

/-! ## Identifiers -/

namespace Text

/-- A letter, a digit or the underscore, all of ASCII. -/
def isPlainChar (c : Char) : Bool := c.isAlphanum || c = '_'

/-- An identifier of ASCII. -/
def isIdentifier (cs : List Char) : Bool :=
  cs.head?.any (fun c => c.isAlpha || c = '_') && cs.all isPlainChar

variable {c : Char} {cs : List Char}

theorem isWord_of_isPlainChar (h : isPlainChar c = true) : isWord c = true := by
  simp only [isPlainChar, Bool.or_eq_true, decide_eq_true_eq] at h
  rcases h with h | rfl
  · simp [isWord, h]
  · decide

/-- The characters of identifiers are digits, capital and small letters and the underscore. -/
theorem toNat_of_isPlainChar (h : isPlainChar c = true) :
    (48 ≤ c.toNat ∧ c.toNat ≤ 57) ∨ (65 ≤ c.toNat ∧ c.toNat ≤ 90) ∨ c.toNat = 95 ∨
      (97 ≤ c.toNat ∧ c.toNat ≤ 122) := by
  have hranges : (decide ('A'.val ≤ c.val ∧ c.val ≤ 'Z'.val) ||
      decide ('a'.val ≤ c.val) && decide (c.val ≤ 'z'.val) ||
      decide ('0'.val ≤ c.val) && decide (c.val ≤ '9'.val) || decide (c = '_')) = true := h
  simp only [Bool.or_eq_true, Bool.and_eq_true, decide_eq_true_eq,
    UInt32.le_iff_toNat_le] at hranges
  rcases hranges with ((h | h) | h) | rfl
  · exact .inr (.inl h)
  · exact .inr (.inr (.inr h))
  · exact .inl h
  · exact .inr (.inr (.inl rfl))

/-- A character of an identifier is no blank. -/
theorem isBlank_of_isPlainChar (h : isPlainChar c = true) : isBlank c = false := by
  have hn := toNat_of_isPlainChar h
  simp only [isBlank, Bool.or_eq_false_iff, Bool.and_eq_false_iff, decide_eq_false_iff_not,
    beq_eq_false_iff_ne]
  omega

/-- An ASCII word character differs from each character that is none. -/
theorem ne_of_isPlainChar {d : Char} (h : isPlainChar c = true) (hd : isPlainChar d = false) :
    c ≠ d := by
  rintro rfl
  exact absurd h (by simp [hd])

theorem isMark_of_isPlainChar (h : isPlainChar c = true) : Spelling.isMark c = false := by
  simp [Spelling.isMark, ne_of_isPlainChar h (show isPlainChar '*' = false by decide),
    ne_of_isPlainChar h (show isPlainChar '&' = false by decide)]

theorem isPlainChar_of_mem (h : isIdentifier cs = true) : ∀ c ∈ cs, isPlainChar c = true :=
  List.all_eq_true.1 (Bool.and_eq_true_iff.1 h).2

theorem isIdentifier_ne_nil (h : isIdentifier cs = true) : cs ≠ [] := by
  rintro rfl
  cases h

/-- An identifier begins with a visible character. -/
theorem exists_cons_of_isIdentifier (h : isIdentifier cs = true) :
    ∃ c tail, cs = c :: tail ∧ isBlank c = false := by
  obtain ⟨c, tail, rfl⟩ := List.exists_cons_of_ne_nil (isIdentifier_ne_nil h)
  exact ⟨c, tail, rfl, isBlank_of_isPlainChar (isPlainChar_of_mem h c List.mem_cons_self)⟩

/-! ## Words one space apart -/

/-- Words with a space behind each. -/
def spaced (words : List (List Char)) : List Char := words.flatMap (· ++ [' '])

@[simp] theorem spaced_nil : spaced [] = [] := rfl

@[simp] theorem spaced_cons (word : List Char) (words : List (List Char)) :
    spaced (word :: words) = word ++ ' ' :: spaced words := by
  simp [spaced]

theorem spaced_append (first second : List (List Char)) :
    spaced (first ++ second) = spaced first ++ spaced second := List.flatMap_append

/-- Words with blanks between them and one more behind them all. -/
theorem intercalate_append_space {words : List (List Char)} (h : words ≠ []) :
    [' '].intercalate words ++ [' '] = spaced words := by
  induction words with
  | nil => exact absurd rfl h
  | cons word words ih =>
    by_cases hwords : words = []
    · simp [hwords]
    · rw [List.intercalate_cons_of_ne_nil hwords, List.append_assoc, ih hwords, spaced_cons,
        List.append_assoc]
      rfl

/-- Words with blanks behind them have only characters of identifiers and blanks. -/
theorem mem_spaced {words : List (List Char)} (hwords : ∀ w ∈ words, isIdentifier w = true)
    (hc : c ∈ spaced words) : isPlainChar c = true ∨ c = ' ' := by
  obtain ⟨w, hw, hc⟩ := List.mem_flatMap.1 hc
  rcases List.mem_append.1 hc with hc | hc
  · exact .inl (isPlainChar_of_mem (hwords w hw) c hc)
  · exact .inr (List.mem_singleton.1 hc)

/-- Words with blanks between them have only characters of identifiers and blanks. -/
theorem mem_intercalate {words : List (List Char)} (hwords : ∀ w ∈ words, isIdentifier w = true)
    (hc : c ∈ [' '].intercalate words) : isPlainChar c = true ∨ c = ' ' := by
  have hne : words ≠ [] := by
    rintro rfl
    cases hc
  exact mem_spaced hwords (intercalate_append_space hne ▸ List.mem_append_left [' '] hc)

end Text

/-! ## Spelling -/

namespace Spelling

/-- The text of a type: its words one space apart, and its marks, if any, behind one more space. -/
def text (words : List (List Char)) (marks : List Char) : List Char :=
  [' '].intercalate words ++ if marks = [] then [] else ' ' :: marks

/-- A mark does not follow a word directly. -/
def Apart (c d : Char) : Prop := isMark d = true → isWord c = false

/-- Two characters between which a spelling has nothing to change: a mark follows no word, and
only marks follow a mark. -/
def Fits (c d : Char) : Prop :=
  (isMark d = true → isWord c = false) ∧ (isMark c = true → isMark d = true)

/-- A text with a blank in front of each mark needs no more of them. -/
theorem spaceMarks_of_isChain {cs : List Char} (h : cs.IsChain Apart) : spaceMarks cs = cs := by
  fun_induction spaceMarks cs with
  | case1 => rfl
  | case2 c => rfl
  | case3 c d rest hmark ih =>
    obtain ⟨hword, hd⟩ := Bool.and_eq_true_iff.1 hmark
    exact absurd hword (by simp [(List.isChain_cons_cons.1 h).1 hd])
  | case4 c d rest hmark ih => rw [ih (List.isChain_cons_cons.1 h).2]

/-- A text without blanks between marks has none to drop. -/
theorem joinMarks_of_isChain {cs : List Char} (h : cs.IsChain Fits) : joinMarks cs = cs := by
  fun_induction joinMarks cs with
  | case1 c d rest hmarks ih =>
    have hc := (List.isChain_cons_cons.1 h).1.2 (Bool.and_eq_true_iff.1 hmarks).1
    exact absurd hc (by decide)
  | case2 c d rest hmarks ih => rw [ih (List.isChain_cons_cons.1 h).2]
  | case3 c rest hrest ih => rw [ih h.tail]
  | case4 => rfl

variable {words : List (List Char)} {marks : List Char}

theorem isMark_iff {c : Char} : isMark c = true ↔ c = '*' ∨ c = '&' := by
  simp only [isMark, Bool.or_eq_true, decide_eq_true_eq]

theorem isWord_of_isMark {c : Char} (h : isMark c = true) : isWord c = false := by
  rcases isMark_iff.1 h with rfl | rfl <;> decide

theorem isBlank_of_isMark {c : Char} (h : isMark c = true) : isBlank c = false := by
  rcases isMark_iff.1 h with rfl | rfl <;> decide

/-- Words have no marks in them. -/
theorem isMark_of_mem_intercalate (hwords : ∀ w ∈ words, isIdentifier w = true) {c : Char}
    (hc : c ∈ [' '].intercalate words) : isMark c = false := by
  rcases mem_intercalate hwords hc with hc | rfl
  · exact isMark_of_isPlainChar hc
  · decide

/-- A type is written with one blank between its words and its marks. -/
theorem isChain_text (hwords : ∀ w ∈ words, isIdentifier w = true)
    (hmarks : ∀ c ∈ marks, isMark c = true) : (text words marks).IsChain Fits := by
  have hfirst : ([' '].intercalate words).IsChain Fits := by
    refine List.Pairwise.isChain (List.pairwise_iff_forall_sublist.2 fun {c d} hsub => ?_)
    have hc := isMark_of_mem_intercalate hwords (hsub.subset (List.mem_cons_self (a := c)))
    have hd := isMark_of_mem_intercalate hwords (hsub.subset (by simp : d ∈ [c, d]))
    simp [Fits, hc, hd]
  have hsecond : marks.IsChain Fits := by
    refine List.Pairwise.isChain (List.pairwise_iff_forall_sublist.2 fun {c d} hsub => ?_)
    have hc := hmarks c (hsub.subset List.mem_cons_self)
    have hd := hmarks d (hsub.subset (by simp))
    simp [Fits, hd, isWord_of_isMark hc]
  rw [text]
  split
  · rwa [List.append_nil]
  · refine List.isChain_append.2 ⟨hfirst, List.isChain_cons.2 ⟨fun c hc => ?_, hsecond⟩, ?_⟩
    · exact ⟨fun _ => by decide, fun h => absurd h (by decide)⟩
    · intro c hc d hd
      obtain rfl : ' ' = d := by simpa using hd
      have hmark := isMark_of_mem_intercalate hwords (List.mem_of_getLast? hc)
      exact ⟨fun h => absurd h (by decide), fun h => absurd h (by simp [hmark])⟩

/-- A type with marks ends with the last of them. -/
theorem getLast?_marks (hnil : marks ≠ []) (front : List Char) :
    (front ++ ' ' :: marks).getLast? = some (marks.getLast hnil) := by
  rw [List.getLast?_append, List.getLast?_cons, List.getLast?_eq_some_getLast hnil]
  rfl

/-- No blanks stand around words with marks behind them. -/
theorem trim_marks (hne : words ≠ []) (hwords : ∀ w ∈ words, isIdentifier w = true)
    (hnil : marks ≠ []) (hmarks : ∀ c ∈ marks, isMark c = true) :
    trim ([' '].intercalate words ++ ' ' :: marks) = [' '].intercalate words ++ ' ' :: marks := by
  obtain ⟨w, words, rfl⟩ := List.exists_cons_of_ne_nil hne
  have hw := hwords w List.mem_cons_self
  obtain ⟨d, w, rfl⟩ := List.exists_cons_of_ne_nil (isIdentifier_ne_nil hw)
  refine trim_eq_self (fun c hc => ?_) fun c hc => ?_
  · obtain rfl : d = c := by simpa using hc
    exact isBlank_of_isPlainChar (isPlainChar_of_mem hw d List.mem_cons_self)
  · rw [getLast?_marks hnil] at hc
    obtain rfl : marks.getLast hnil = c := Option.some.inj hc
    exact isBlank_of_isMark (hmarks _ (List.getLast_mem hnil))

/-- The marks of a type stand behind its words like one more word. -/
theorem text_eq_intercalate (hne : words ≠ []) (hmarks : marks ≠ []) :
    text words marks = [' '].intercalate (words ++ [marks]) := by
  rw [text, if_neg hmarks, intercalate_concat marks hne, List.append_assoc]
  rfl

/-- A type of plain words is in its one spelling. -/
theorem normalize_text (hne : words ≠ []) (hwords : ∀ w ∈ words, isIdentifier w = true)
    (hmarks : ∀ c ∈ marks, isMark c = true) : normalize (text words marks) = text words marks := by
  have hplain : ∀ w ∈ words, w ≠ [] ∧ ∀ c ∈ w, isBlank c = false := fun w hw =>
    ⟨isIdentifier_ne_nil (hwords w hw),
      fun c hc => isBlank_of_isPlainChar (isPlainChar_of_mem (hwords w hw) c hc)⟩
  have hcollapse : collapse (text words marks) = text words marks := by
    by_cases hnil : marks = []
    · rw [text, if_pos hnil, List.append_nil, collapse_intercalate hplain]
    · rw [text_eq_intercalate hne hnil]
      refine collapse_intercalate fun w hw => ?_
      rcases List.mem_append.1 hw with hw | hw
      · exact hplain w hw
      · obtain rfl := List.mem_singleton.1 hw
        exact ⟨hnil, fun c hc => isBlank_of_isMark (hmarks c hc)⟩
  have hchain := isChain_text hwords hmarks
  rw [normalize, hcollapse, spaceMarks_of_isChain (hchain.imp fun _ _ hfits => hfits.1),
    joinMarks_of_isChain hchain]

end Spelling

/-! ## Declarations -/

namespace Declarator

/-- A text without brackets has no extents. -/
theorem readExtents?_trimStart_eq_none {cs : List Char} (h : '[' ∉ cs) :
    readExtents? (trimStart cs) = none := by
  rw [readExtents?.eq_def]
  split
  · rename_i rest hstart
    have hmem : '[' ∈ trimStart cs := hstart ▸ List.mem_cons_self
    exact absurd ((List.dropWhile_suffix isBlank).subset hmem) h
  · rfl

/-- A type without brackets has no extents. -/
theorem splitExtents_eq_none {cs : List Char} (h : '[' ∉ cs) : splitExtents cs = none := by
  induction cs with
  | nil => rfl
  | cons c cs ih =>
    have hcs := ih (List.not_mem_of_not_mem_cons h)
    rw [splitExtents.eq_def]
    simp only [readExtents?_trimStart_eq_none h, hcs, Option.map_none, ite_self]

open Spelling

variable {words : List (List Char)} {marks : List Char}

/-- A plain type has no brackets. -/
theorem not_mem_text (hwords : ∀ w ∈ words, isIdentifier w = true)
    (hmarks : ∀ c ∈ marks, isMark c = true) : '[' ∉ text words marks := by
  intro hmem
  rcases List.mem_append.1 hmem with hmem | hmem
  · rcases mem_intercalate hwords hmem with h | h
    · exact absurd h (by decide)
    · exact absurd h (by decide)
  · by_cases hnil : marks = []
    · rw [if_pos hnil] at hmem
      cases hmem
    · rw [if_neg hnil, List.mem_cons] at hmem
      rcases hmem with h | hmem
      · exact absurd h (by decide)
      · exact absurd (hmarks _ hmem) (by decide)

theorem attach_of_isMark {type : List Char} {c : Char} (hlast : type.getLast? = some c)
    (hc : isMark c = true) (name : List Char) : attach type name = type ++ name := by
  simp only [attach, hlast, if_pos hc]

theorem attach_of_not_isMark {type : List Char} {c : Char} (hlast : type.getLast? = some c)
    (hc : isMark c = false) (name : List Char) : attach type name = type ++ ' ' :: name := by
  simp only [attach, hlast, hc, Bool.false_eq_true, if_false]

/-- Words end with a character that is no mark. -/
theorem exists_getLast?_intercalate (hne : words ≠ [])
    (hwords : ∀ w ∈ words, isIdentifier w = true) :
    ∃ c, ([' '].intercalate words).getLast? = some c ∧ isMark c = false := by
  cases hlast : ([' '].intercalate words).getLast? with
  | some c => exact ⟨c, rfl, isMark_of_mem_intercalate hwords (List.mem_of_getLast? hlast)⟩
  | none =>
    have hspaced := intercalate_append_space hne
    rw [List.getLast?_eq_none_iff.1 hlast] at hspaced
    obtain ⟨w, words, rfl⟩ := List.exists_cons_of_ne_nil hne
    obtain ⟨d, w, rfl⟩ := List.exists_cons_of_ne_nil (isIdentifier_ne_nil (hwords w (by simp)))
    simp at hspaced

/-- A declaration leaves the words of the type in front and moves its marks to the name. -/
theorem declare_text (hne : words ≠ []) (hwords : ∀ w ∈ words, isIdentifier w = true)
    (hmarks : ∀ c ∈ marks, isMark c = true) (name : List Char) :
    declare (text words marks) name = spaced words ++ marks ++ name := by
  rw [declare, splitExtents_eq_none (not_mem_text hwords hmarks), text,
    ← intercalate_append_space hne]
  by_cases hnil : marks = []
  · obtain ⟨c, hlast, hc⟩ := exists_getLast?_intercalate hne hwords
    rw [if_pos hnil, hnil, List.append_nil, List.append_nil, List.append_assoc]
    exact attach_of_not_isMark hlast hc name
  · have hmem := List.getLast_mem hnil
    rw [if_neg hnil, List.append_assoc, List.append_assoc]
    simpa using attach_of_isMark (getLast?_marks hnil _) (hmarks _ hmem) name

end Declarator

end HeaderApi
