import HeaderApi.Source.TopLevel
import Mathlib.Data.List.Basic

/-!
# Parts outside of brackets and quotes

A text that ends where it began, outside of brackets and quotes, and that holds no separator there
is one part of every text that is put together with separators.  The parts of a text are the only
ones of this kind that make it up.
-/

namespace HeaderApi.Source

variable {separator : Char} {state : Nesting} {front cs rest : List Char}

/-! ## The scan of a text -/

/-- The state after a text. -/
def Nesting.after (state : Nesting) (cs : List Char) : Nesting :=
  cs.foldl (fun state c => state.next c) state

@[simp] theorem Nesting.after_nil (state : Nesting) : state.after [] = state := rfl

@[simp] theorem Nesting.after_cons (c : Char) (cs : List Char) (state : Nesting) :
    state.after (c :: cs) = (state.next c).after cs := rfl

theorem Nesting.after_append (front cs : List Char) (state : Nesting) :
    state.after (front ++ cs) = (state.after front).after cs := List.foldl_append

/-- A character that is neither a quote nor a bracket. -/
def isPlain (c : Char) : Bool := !isQuote c && !isOpening c && !isClosing c

theorem isQuote_of_isPlain {c : Char} (h : isPlain c = true) : isQuote c = false := by
  simp only [isPlain, Bool.and_eq_true, Bool.not_eq_true'] at h
  exact h.1.1

/-- A plain character leaves the state as it is. -/
theorem Nesting.next_of_isPlain {c : Char} (h : isPlain c = true) (depth : Int) :
    Nesting.next c ⟨none, depth⟩ = ⟨none, depth⟩ := by
  simp only [isPlain, Bool.and_eq_true, Bool.not_eq_true'] at h
  simp [Nesting.next, h]

/-- Plain characters leave the state as it is. -/
theorem Nesting.after_of_isPlain (h : ∀ c ∈ cs, isPlain c = true) (depth : Int) :
    (⟨none, depth⟩ : Nesting).after cs = ⟨none, depth⟩ := by
  induction cs with
  | nil => rfl
  | cons c cs ih =>
    obtain ⟨hc, hcs⟩ := List.forall_mem_cons.1 h
    rw [Nesting.after_cons, Nesting.next_of_isPlain hc, ih hcs]

/-! ## Texts without separators at the top level -/

/-- In a text that is read from the given state every separator stands in brackets or quotes. -/
def Encloses (separator : Char) (state : Nesting) (cs : List Char) : Prop :=
  ∀ front rest, cs = front ++ separator :: rest → state.after front ≠ .top

theorem encloses_nil : Encloses separator state [] := by
  rintro (_ | ⟨c, front⟩) rest h <;> cases h

/-- A text encloses its separators when its first character is none at the top and the rest encloses
its own. -/
theorem encloses_cons {c : Char} : Encloses separator state (c :: cs) ↔
    (c = separator → state ≠ .top) ∧ Encloses separator (state.next c) cs := by
  constructor
  · intro h
    refine ⟨fun hc => h [] cs (by rw [hc]; rfl), fun front rest hcs => ?_⟩
    exact h (c :: front) rest (by rw [hcs]; rfl)
  · rintro ⟨hc, h⟩ (_ | ⟨d, front⟩) rest hcs
    · exact hc (List.cons.inj hcs).1
    · obtain ⟨rfl, hrest⟩ := List.cons.inj hcs
      exact h front rest hrest

instance decidableEncloses : ∀ (state : Nesting) (cs : List Char),
    Decidable (Encloses separator state cs)
  | _, [] => isTrue encloses_nil
  | state, c :: cs =>
    have := decidableEncloses (state.next c) cs
    decidable_of_iff _ encloses_cons.symm

theorem encloses_append : Encloses separator state (front ++ cs) ↔
    Encloses separator state front ∧ Encloses separator (state.after front) cs := by
  induction front generalizing state with
  | nil => simp [encloses_nil]
  | cons c front ih =>
    simp only [List.cons_append, encloses_cons, ih, and_assoc, Nesting.after_cons]

theorem encloses_of_not_mem (h : separator ∉ cs) : Encloses separator state cs := by
  rintro front rest rfl
  exact absurd (by simp) h

/-- In brackets plain characters enclose every separator. -/
theorem encloses_of_isPlain (h : ∀ c ∈ cs, isPlain c = true) {depth : Int} (hdepth : depth ≠ 0) :
    Encloses separator ⟨none, depth⟩ cs := by
  rintro front rest rfl
  rw [Nesting.after_of_isPlain fun c hc => h c (List.mem_append_left _ hc)]
  simp [Nesting.top, hdepth]

/-- A text that ends where it began, outside of brackets and quotes, and that holds no separator
there. -/
structure IsLevel (separator : Char) (cs : List Char) : Prop where
  ends : Nesting.top.after cs = .top
  encloses : Encloses separator .top cs

theorem isLevel_iff : IsLevel separator cs ↔
    Nesting.top.after cs = .top ∧ Encloses separator .top cs :=
  ⟨fun h => ⟨h.ends, h.encloses⟩, fun h => ⟨h.1, h.2⟩⟩

instance : Decidable (IsLevel separator cs) := decidable_of_iff _ isLevel_iff.symm

theorem IsLevel.append (hfront : IsLevel separator front) (hcs : IsLevel separator cs) :
    IsLevel separator (front ++ cs) where
  ends := by rw [Nesting.after_append, hfront.ends, hcs.ends]
  encloses := encloses_append.2 ⟨hfront.encloses, by rw [hfront.ends]; exact hcs.encloses⟩

theorem isLevel_of_isPlain (h : ∀ c ∈ cs, isPlain c = true) (hcs : separator ∉ cs) :
    IsLevel separator cs :=
  ⟨Nesting.after_of_isPlain h 0, encloses_of_not_mem hcs⟩

/-- A text in brackets that holds no further brackets or quotes. -/
theorem isLevel_extent (hseparator : isPlain separator = true) (h : ∀ c ∈ cs, isPlain c = true) :
    IsLevel separator ('[' :: (cs ++ [']'])) := by
  have hopen : Nesting.next '[' .top = ⟨none, 1⟩ := by decide
  have hinside := Nesting.after_of_isPlain h 1
  constructor
  · rw [Nesting.after_cons, hopen, Nesting.after_append, hinside]
    decide
  · rw [encloses_cons, hopen, encloses_append, hinside, encloses_cons]
    refine ⟨?_, encloses_of_isPlain h (by decide), ?_, encloses_nil⟩
    · rintro rfl
      exact absurd hseparator (by decide)
    · rintro rfl
      exact absurd hseparator (by decide)

/-! ## Parts -/

/-- Characters in front belong to the first part. -/
theorem foldr_consPart (front part : List Char) (parts : List (List Char)) :
    front.foldr consPart (part :: parts) = (front ++ part) :: parts := by
  induction front with
  | nil => rfl
  | cons c front ih => rw [List.foldr_cons, ih]; rfl

/-- A text without separators at the top level goes to the front of the first part. -/
theorem splitFrom_append (h : Encloses separator state front) (rest : List Char) :
    splitFrom separator state (front ++ rest) =
      front.foldr consPart (splitFrom separator (state.after front) rest) := by
  induction front generalizing state with
  | nil => rfl
  | cons c front ih =>
    obtain ⟨hc, hfront⟩ := encloses_cons.1 h
    have hseparates : state.separates separator c = false := by
      by_cases hmark : c = separator
      · simp [Nesting.separates, hc hmark]
      · simp [Nesting.separates, hmark]
    rw [List.cons_append, splitFrom, hseparates, ih hfront]
    rfl

/-- A text that encloses its separators is its only part. -/
theorem splitTopLevel_of_encloses (h : Encloses separator .top cs) :
    splitTopLevel separator cs = [cs] := by
  have hsplit := splitFrom_append h []
  rw [List.append_nil] at hsplit
  rw [splitTopLevel, hsplit, splitFrom, foldr_consPart, List.append_nil]

/-- A part ends before the separator behind it. -/
theorem splitTopLevel_append (hseparator : isPlain separator = true) (h : IsLevel separator front)
    (rest : List Char) :
    splitTopLevel separator (front ++ separator :: rest) =
      front :: splitTopLevel separator rest := by
  have hseparates : Nesting.top.separates separator separator = true := by
    simp only [isPlain, Bool.and_eq_true, Bool.not_eq_true'] at hseparator
    simp [Nesting.separates, hseparator]
  rw [splitTopLevel, splitFrom_append h.encloses, h.ends, splitFrom, hseparates, if_pos rfl,
    foldr_consPart, List.append_nil]
  rfl

/-! ## The only parts -/

/-- Parts that make up a text when separators are put between them, of which each but the last ends
where it began, and none holds a separator outside of brackets and quotes. -/
structure IsSplit (separator : Char) (text : List Char) (parts : List (List Char)) : Prop where
  ne_nil : parts ≠ []
  join : [separator].intercalate parts = text
  ends : ∀ part ∈ parts.dropLast, Nesting.top.after part = .top
  encloses : ∀ part ∈ parts, Encloses separator .top part

/-- A text has a separator at the top level unless it encloses all of them, and the text in front of
the first one encloses the others. -/
theorem exists_of_not_encloses (h : ¬Encloses separator state cs) : ∃ front rest,
    cs = front ++ separator :: rest ∧ state.after front = .top ∧
      Encloses separator state front := by
  induction cs generalizing state with
  | nil => exact absurd encloses_nil h
  | cons c cs ih =>
    by_cases hc : c = separator ∧ state = .top
    · obtain ⟨rfl, htop⟩ := hc
      exact ⟨[], cs, rfl, htop, encloses_nil⟩
    · have hfirst : c = separator → state ≠ .top := fun heq htop => hc ⟨heq, htop⟩
      have hlater : ¬Encloses separator (state.next c) cs := fun hcs =>
        h (encloses_cons.2 ⟨hfirst, hcs⟩)
      obtain ⟨front, rest, rfl, htop, hfront⟩ := ih hlater
      exact ⟨c :: front, rest, rfl, htop, encloses_cons.2 ⟨hfirst, hfront⟩⟩

/-- The parts of a text are a split of it. -/
theorem isSplit_splitTopLevel (h : isPlain separator = true) (text : List Char) :
    IsSplit separator text (splitTopLevel separator text) := by
  by_cases htext : Encloses separator .top text
  · rw [splitTopLevel_of_encloses htext]
    exact ⟨List.cons_ne_nil _ _, List.intercalate_singleton .., by simp, by simpa using htext⟩
  · obtain ⟨front, rest, rfl, htop, hfront⟩ := exists_of_not_encloses htext
    have hrest := isSplit_splitTopLevel h rest
    have hsplit := splitTopLevel_append h ⟨htop, hfront⟩ rest
    refine ⟨splitFrom_ne_nil separator .top _, intercalate_splitFrom separator .top _, ?_, ?_⟩
    · rw [hsplit, List.dropLast_cons_of_ne_nil hrest.ne_nil]
      exact List.forall_mem_cons.2 ⟨htop, hrest.ends⟩
    · rw [hsplit]
      exact List.forall_mem_cons.2 ⟨hfront, hrest.encloses⟩
  termination_by text.length

/-- Parts that are joined are found again. -/
theorem splitTopLevel_intercalate (h : isPlain separator = true) {parts : List (List Char)}
    (hne : parts ≠ []) (hends : ∀ part ∈ parts.dropLast, Nesting.top.after part = .top)
    (hencloses : ∀ part ∈ parts, Encloses separator .top part) :
    splitTopLevel separator ([separator].intercalate parts) = parts := by
  induction parts with
  | nil => exact absurd rfl hne
  | cons part parts ih =>
    obtain ⟨hpart, hparts⟩ := List.forall_mem_cons.1 hencloses
    cases parts with
    | nil => rw [List.intercalate_singleton, splitTopLevel_of_encloses hpart]
    | cons next parts =>
      rw [List.dropLast_cons_cons] at hends
      obtain ⟨htop, hends⟩ := List.forall_mem_cons.1 hends
      rw [List.intercalate_cons_cons, List.append_assoc, List.singleton_append,
        splitTopLevel_append h ⟨htop, hpart⟩, ih (List.cons_ne_nil _ _) hends hparts]

/-- **Splitting at the top level and joining undo each other.**  The parts of a text are the only
ones that make it up when separators are put between them, with no separator outside of brackets and
quotes in any part, and with every part but the last ending outside of them again. -/
theorem splitTopLevel_eq_iff (h : isPlain separator = true) (text : List Char)
    (parts : List (List Char)) :
    splitTopLevel separator text = parts ↔ IsSplit separator text parts := by
  constructor
  · rintro rfl
    exact isSplit_splitTopLevel h text
  · rintro ⟨hne, rfl, hends, hencloses⟩
    exact splitTopLevel_intercalate h hne hends hencloses

/-- A text with separators in brackets, behind a closing bracket too many, and behind a quote that
is not closed. -/
def unbalancedText : List Char := "f(a, b), 'x,', g>, c], \"d, e".toList

/-- A text with brackets of different kinds and a literal that is not closed. -/
theorem splitTopLevel_eq_iff_unbalanced :
    isPlain ',' = true ∧
      splitTopLevel ',' unbalancedText =
        ["f(a, b)", " 'x,'", " g>, c], \"d, e"].map String.toList ∧
      IsSplit ',' unbalancedText (["f(a, b)", " 'x,'", " g>, c], \"d, e"].map String.toList) :=
  have hsplit : splitTopLevel ',' unbalancedText =
    ["f(a, b)", " 'x,'", " g>, c], \"d, e"].map String.toList := by decide +kernel
  ⟨by decide, hsplit, (splitTopLevel_eq_iff (by decide) _ _).1 hsplit⟩

end HeaderApi.Source
