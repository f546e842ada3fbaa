import HeaderApi.Pattern.Replacement

/-!
# Reading patterns to their end

No reader of a pattern leaves more of the text than it was given, and a step in a sequence of parts
leaves less.  Patterns, classes and the flag groups in front of a pattern are read under a bound on
the number of steps; as every step takes a piece of the text, that bound is never met, and every
greater one gives the same result.
-/

namespace HeaderApi.Pattern

variable {α β : Type} {n m : Nat} {tokens rest : List Token}

/-! ## What is left -/

/-- What is read, if anything is, leaves less than a number of pieces. -/
def LeavesLess (n : Nat) (found : Option (α × List Token)) : Prop :=
  ∀ a rest, found = some (a, rest) → rest.length < n

namespace LeavesLess

variable {found : Option (α × List Token)}

theorem none : LeavesLess n (Option.none : Option (α × List Token)) := fun _ _ h => nomatch h

theorem some {a : α} (h : rest.length < n) : LeavesLess n (Option.some (a, rest)) := by
  intro b tail heq
  cases heq
  exact h

theorem mono (h : LeavesLess n found) (hle : n ≤ m) : LeavesLess m found :=
  fun a rest heq => Nat.lt_of_lt_of_le (h a rest heq) hle

theorem map (h : LeavesLess n found) (f : α → β) :
    LeavesLess n (found.map fun read => (f read.1, read.2)) := by
  intro b tail heq
  obtain ⟨⟨a, rest⟩, hfound, hread⟩ := Option.map_eq_some_iff.1 heq
  cases hread
  exact h a rest hfound

theorem bind (h : LeavesLess n found) {f : α × List Token → Option (β × List Token)}
    (hf : ∀ a rest, rest.length < n → LeavesLess m (f (a, rest))) :
    LeavesLess m (found.bind f) := by
  intro b tail heq
  obtain ⟨⟨a, rest⟩, hfound, hread⟩ := Option.bind_eq_some_iff.1 heq
  exact hf a rest (h a rest hfound) b tail hread

end LeavesLess

/-! ## Pieces -/

namespace Token

/-- What follows the first plain characters is no longer than the text. -/
theorem length_takePlain_le (p : Char → Bool) (n : Nat) (tokens : List Token) :
    (takePlain p n tokens).2.length ≤ tokens.length := by
  fun_induction takePlain p n tokens with
  | case1 n c rest hp cs tail hrest ih =>
    rw [hrest] at ih
    exact Nat.le_succ_of_le ih
  | case2 => exact Nat.le_refl _
  | case3 => exact Nat.le_refl _

theorem length_le_of_takePlain {p : Char → Bool} {cs : List Char}
    (h : takePlain p n tokens = (cs, rest)) : rest.length ≤ tokens.length := by
  have hle := length_takePlain_le p n tokens
  rwa [h] at hle

/-- What follows a mark is shorter than the text with the mark. -/
theorem leavesLess_until? (mark : Char) (tokens : List Token) :
    LeavesLess tokens.length (until? mark tokens) := by
  induction tokens with
  | nil => exact .none
  | cons token rest ih =>
    rw [until?]
    split
    · exact .some (Nat.lt_succ_self _)
    · exact (ih.map fun text => token.text ++ text).mono (Nat.le_succ _)

theorem leavesLess_name? (mark : Char) (tokens : List Token) :
    LeavesLess tokens.length (name? mark tokens) :=
  fun name rest h =>
    leavesLess_until? mark tokens name rest (Option.eq_some_of_filter_eq_some h)

theorem leavesLess_hexCode? (digits : Nat) (tokens : List Token) :
    LeavesLess (tokens.length + 1) (hexCode? digits tokens) := by
  have hle := length_takePlain_le isHex digits tokens
  unfold hexCode?
  dsimp only
  split
  · exact .some (Nat.lt_succ_of_le hle)
  · exact .none

theorem leavesLess_octalCode? (c : Char) (tokens : List Token) :
    LeavesLess (tokens.length + 1) (octalCode? c tokens) := by
  have hle := length_takePlain_le isOctal 2 tokens
  unfold octalCode?
  dsimp only
  split
  · exact .some (Nat.lt_succ_of_le hle)
  · exact .none

variable [CharacterNames]

theorem leavesLess_namedCode? (tokens : List Token) :
    LeavesLess (tokens.length + 1) (namedCode? tokens) := by
  unfold namedCode?
  split
  · rename_i rest
    refine (leavesLess_name? _ rest).bind fun name tail hlt => ?_
    dsimp only
    cases CharacterNames.find? name with
    | none => exact .none
    | some c => exact .some (Nat.lt_succ_of_lt (Nat.lt_succ_of_lt hlt))
  · exact .none

/-- What follows an escape is no longer than what follows its letter. -/
theorem leavesLess_codeEscape? (c : Char) (tokens : List Token) :
    LeavesLess (tokens.length + 1) (codeEscape? c tokens) := by
  have hsame (code : Nat) : LeavesLess (tokens.length + 1) (some (code, tokens)) :=
    .some (Nat.lt_succ_self _)
  rw [codeEscape?]
  split
  · exact hsame _
  · repeat' split
    · exact leavesLess_hexCode? 2 tokens
    · exact leavesLess_hexCode? 4 tokens
    · exact leavesLess_hexCode? 8 tokens
    · exact leavesLess_namedCode? tokens
    · exact .none
    · exact hsame _

end Token

open Token

/-! ## Flags -/

namespace Flags

/-- A blank or comment that is passed over is a part of the text. -/
theorem length_lt_of_skipped? {verbose : Bool} (h : skipped? verbose tokens = some rest) :
    rest.length < tokens.length := by
  unfold skipped? at h
  split at h
  · rename_i c tail
    split at h
    · cases h
      exact Nat.lt_succ_self _
    · split at h
      · cases h
        have hle := (List.dropWhile_suffix (· ≠ Token.plain '\n') (l := tail)).length_le
        simp only [List.length_drop, List.length_cons]
        omega
      · cases h
  · cases h

/-- What follows a comment in parentheses is shorter than the text with it. -/
theorem length_lt_of_afterComment? (h : afterComment? tokens = some rest) :
    rest.length < tokens.length := by
  obtain ⟨⟨text, tail⟩, hfound, heq⟩ := Option.map_eq_some_iff.1 h
  cases heq
  exact leavesLess_until? _ tokens text tail hfound

/-- What follows the flags of a group is shorter than the text with its colon. -/
theorem leavesLess_ofGroup? (flags : Flags) (tokens : List Token) :
    LeavesLess tokens.length (flags.ofGroup? tokens) := by
  unfold ofGroup?
  split
  · rename_i on rest htake
    have hle := length_le_of_takePlain htake
    split
    · exact .some hle
    · exact .none
  · rename_i on rest htake
    have hle := length_le_of_takePlain htake
    split
    · rename_i off tail hoff
      have htail := length_le_of_takePlain hoff
      split
      · exact .some (Nat.lt_of_lt_of_le htail (Nat.le_of_lt hle))
      · exact .none
    · exact .none
  · exact .none

theorem leavesLess_globalLetters? (tokens : List Token) :
    LeavesLess tokens.length (globalLetters? tokens) := by
  unfold globalLetters?
  split
  · rename_i on rest htake
    split
    · exact .some (length_le_of_takePlain htake)
    · exact .none
  · exact .none

/-- **The groups in front of a pattern** are read under a bound that is never met: bounds that are
greater than the number of pieces are all the same. -/
theorem leading?_eq {letters : List Char} (hn : tokens.length < n) (hm : tokens.length < m) :
    leading? n letters tokens = leading? m letters tokens := by
  induction n generalizing m letters tokens with
  | zero => exact absurd hn (Nat.not_lt_zero _)
  | succ n ih =>
    obtain _ | m := m
    · exact absurd hm (Nat.not_lt_zero _)
    have hnext {next : List Token} (letters : List Char) (h : next.length < tokens.length) :
        leading? n letters next = leading? m letters next := ih (by omega) (by omega)
    unfold leading?
    split
    · rename_i rest
      refine Option.bind_congr fun tail htail => hnext _ ?_
      have hlt := length_lt_of_afterComment? htail
      simp only [List.length_cons]
      omega
    · rename_i rest _
      cases hletters : globalLetters? rest with
      | none => rfl
      | some found =>
        have hlt := leavesLess_globalLetters? rest found.1 found.2 hletters
        refine hnext _ ?_
        simp only [List.length_cons]
        omega
    · cases hskipped : skipped? (letters.contains 'x') tokens with
      | none => rfl
      | some tail => exact hnext _ (length_lt_of_skipped? hskipped)

end Flags

/-! ## Parts of sequences -/

namespace Parser

variable {flags : Flags} {state : State} {items : List Item}

/-- What follows the bounds of a repetition is shorter than the text with them. -/
theorem length_lt_of_bounds? {low high : Option Nat} (h : bounds? tokens = some (low, high, rest)) :
    rest.length < tokens.length := by
  have hlow := length_takePlain_le isNumeral tokens.length tokens
  unfold bounds? at h
  dsimp only at h
  split at h
  · rename_i tail htail
    split at h
    · cases h
    · cases h
      rwa [htail] at hlow
  · rename_i next hnext
    rw [hnext] at hlow
    split at h
    · rename_i digits tail hdigits
      have hhigh := length_le_of_takePlain hdigits
      cases h
      exact Nat.lt_of_lt_of_le hhigh (Nat.le_of_lt hlow)
    · cases h
  · cases h

/-- A repetition mark is a part of the text. -/
theorem length_lt_of_mark? {least : Nat} {most : Option Nat}
    (h : mark? tokens = some (least, most, rest)) : rest.length < tokens.length := by
  unfold mark? at h
  split at h
  · cases h
    exact Nat.lt_succ_self _
  · cases h
    exact Nat.lt_succ_self _
  · cases h
    exact Nat.lt_succ_self _
  · obtain ⟨⟨low, high, tail⟩, hbounds, heq⟩ := Option.map_eq_some_iff.1 h
    cases heq
    exact Nat.lt_succ_of_lt (length_lt_of_bounds? hbounds)
  · cases h

/-- A mark behind the number of turns is read or left. -/
theorem length_repetition_le (body : Pattern) (least : Nat) (most : Option Nat)
    (tokens : List Token) : (repetition body least most tokens).2.length ≤ tokens.length := by
  unfold repetition
  split
  · exact Nat.le_succ _
  · exact Nat.le_succ _
  · exact Nat.le_refl _

theorem leavesLess_repeated? (least : Nat) (most : Option Nat) (tokens : List Token)
    (items : List Item) : LeavesLess (tokens.length + 1) (repeated? least most tokens items) := by
  unfold repeated?
  split
  · split
    · exact .some (Nat.lt_succ_of_le (length_repetition_le _ _ _ tokens))
    · exact .none
  · exact .none

/-- What follows the beginning of a group is no longer than what follows its parenthesis. -/
theorem leavesLess_opening? (flags : Flags) (state : State) (tokens : List Token) :
    LeavesLess (tokens.length + 1) (opening? flags state tokens) := by
  have hmarks (marks rest : List Token) : rest.length ≤ (marks ++ rest).length := by
    rw [List.length_append]
    exact Nat.le_add_left _ _
  have hgroup (opening : Opening) (marks rest : List Token) :
      LeavesLess ((marks ++ rest).length + 1) (some (opening, rest)) :=
    .some (Nat.lt_succ_of_le (hmarks marks rest))
  unfold opening?
  split
  · rename_i rest
    refine LeavesLess.mono ?_ (Nat.le_succ_of_le (hmarks [_, _] rest))
    intro opening tail h
    obtain ⟨next, hnext, heq⟩ := Option.map_eq_some_iff.1 h
    cases heq
    exact Flags.length_lt_of_afterComment? hnext
  · exact hgroup _ [_, _] _
  · exact hgroup _ [_, _] _
  · exact hgroup _ [_, _] _
  · exact hgroup _ [_, _] _
  · exact hgroup _ [_, _, _] _
  · exact hgroup _ [_, _, _] _
  · rename_i rest
    refine LeavesLess.mono ?_ (Nat.le_succ_of_le (hmarks [_, _, _] rest))
    refine (leavesLess_name? _ rest).bind fun name tail hlt => ?_
    dsimp only
    split
    · exact .some hlt
    · exact .none
  · rename_i rest
    refine LeavesLess.mono ?_ (Nat.le_succ_of_le (hmarks [_, _, _] rest))
    refine (leavesLess_name? _ rest).bind fun name tail hlt => ?_
    dsimp only
    split
    · cases state.names.lookup name with
      | none => exact .none
      | some index => exact .some hlt
    · exact .none
  · rename_i rest
    refine LeavesLess.mono ?_ (Nat.le_succ_of_le (hmarks [_, _] rest))
    refine (leavesLess_name? _ rest).bind fun name tail hlt => ?_
    dsimp only
    cases condition? state name with
    | none => exact .none
    | some opening => exact .some hlt
  · rename_i rest _ _ _ _ _ _ _ _ _ _
    refine LeavesLess.mono ?_ (Nat.le_succ_of_le (hmarks [_] rest))
    exact (Flags.leavesLess_ofGroup? flags rest).map (Opening.group .plain)
  · exact hgroup _ [] _

theorem length_lt_of_afterClosing? (h : afterClosing? tokens = some rest) :
    rest.length < tokens.length := by
  unfold afterClosing? at h
  split at h
  · cases h
    exact Nat.lt_succ_self _
  · cases h

variable [CharacterNames]

/-- What follows an escape outside of a class is no longer than what follows its letter. -/
theorem leavesLess_escape? (flags : Flags) (state : State) (c : Char) (tokens : List Token) :
    LeavesLess (tokens.length + 1) (escape? flags state c tokens) := by
  have hsame (item : Item) : LeavesLess (tokens.length + 1) (some (item, tokens)) :=
    .some (Nat.lt_succ_self _)
  unfold escape?
  split
  · exact hsame _
  · exact hsame _
  · split
    · dsimp only
      cases reference? flags state (shortNumber c tokens).1 with
      | none => exact .none
      | some pattern => exact .some (Nat.lt_succ_of_le (length_takePlain_le isNumeral 1 tokens))
    · refine LeavesLess.map ?_ fun code => (⟨.char flags.casing code, .part⟩ : Item)
      split
      · exact leavesLess_octalCode? c tokens
      · exact leavesLess_codeEscape? c tokens

/-! ## Classes -/

/-- Inside of a class a character or an escape is taken. -/
theorem leavesLess_classAtom? (ascii : Bool) (tokens : List Token) :
    LeavesLess tokens.length (classAtom? ascii tokens) := by
  unfold classAtom?
  split
  · exact .none
  · exact .some (Nat.lt_succ_self _)
  · rename_i c rest
    split
    · exact .some (Nat.lt_succ_self _)
    · refine LeavesLess.map ?_ (Sum.inl : Nat → Nat ⊕ ClassItem)
      repeat' split
      · exact .some (Nat.lt_succ_self _)
      · exact leavesLess_octalCode? c rest
      · exact .none
      · exact leavesLess_codeEscape? c rest

/-- What follows a class is shorter than the text with its closing bracket. -/
theorem leavesLess_classItems? (ascii : Bool) (n : Nat) (isFirst : Bool) (tokens : List Token) :
    LeavesLess tokens.length (classItems? ascii n isFirst tokens) := by
  induction n generalizing isFirst tokens with
  | zero => exact .none
  | succ n ih =>
    unfold classItems?
    split
    · rename_i hclosed
      cases tokens with
      | nil => cases hclosed
      | cons token rest => exact .some (Nat.lt_succ_self _)
    · refine (leavesLess_classAtom? ascii tokens).bind fun low rest hlow => ?_
      have hitems (first : ClassItem) {next : List Token} (hnext : next.length ≤ rest.length) :
          LeavesLess tokens.length
            ((classItems? ascii n false next).bind fun read => some (first :: read.1, read.2)) :=
        (ih false next).bind fun items tail htail =>
          .some (Nat.lt_trans (Nat.lt_of_lt_of_le htail hnext) hlow)
      dsimp only
      split
      · rename_i tail
        refine .some (Nat.lt_trans ?_ hlow)
        exact Nat.lt_succ_of_lt (Nat.lt_succ_self _)
      · rename_i next _
        refine (leavesLess_classAtom? ascii next).bind fun high last hhigh => ?_
        dsimp only
        split
        · split
          · exact .none
          · exact hitems _ (Nat.le_succ_of_le (Nat.le_of_lt hhigh))
        · exact .none
      · exact hitems _ (Nat.le_refl _)

/-- What follows a class is no longer than what follows its opening bracket. -/
theorem leavesLess_class? (flags : Flags) (tokens : List Token) :
    LeavesLess (tokens.length + 1) (class? flags tokens) := by
  unfold class?
  dsimp only
  split
  · exact ((leavesLess_classItems? _ _ _ _).map _).mono (Nat.le_succ_of_le (Nat.le_succ _))
  · exact ((leavesLess_classItems? _ _ _ _).map _).mono (Nat.le_succ _)

/-- **A class** is read under a bound that is never met. -/
theorem classItems?_eq {ascii isFirst : Bool} (hn : tokens.length < n) (hm : tokens.length < m) :
    classItems? ascii n isFirst tokens = classItems? ascii m isFirst tokens := by
  induction n generalizing m isFirst tokens with
  | zero => exact absurd hn (Nat.not_lt_zero _)
  | succ n ih =>
    obtain _ | m := m
    · exact absurd hm (Nat.not_lt_zero _)
    have hnext {next : List Token} (h : next.length < tokens.length) :
        classItems? ascii n false next = classItems? ascii m false next :=
      ih (by omega) (by omega)
    unfold classItems?
    split
    · rfl
    · refine Option.bind_congr fun read hread => ?_
      have hlow := leavesLess_classAtom? ascii tokens read.1 read.2 hread
      obtain ⟨low, rest⟩ := read
      dsimp only at hlow ⊢
      split
      · rfl
      · rename_i next _
        refine Option.bind_congr fun read hread => ?_
        have hhigh := leavesLess_classAtom? ascii next read.1 read.2 hread
        obtain ⟨high, last⟩ := read
        have hlast : last.length < tokens.length :=
          Nat.lt_trans hhigh (Nat.lt_trans (Nat.lt_succ_self _) hlow)
        dsimp only
        rw [hnext hlast]
      · rw [hnext hlow]

/-! ## Steps -/

/-- What is left behind a step in a sequence of parts that does not end there. -/
def Step.rest? : Step → Option (List Token)
  | .finish => none
  | .next _ rest => some rest
  | .group _ _ rest => some rest
  | .condition _ _ rest => some rest

/-- **A step in a sequence of parts takes a part of the text.** -/
theorem length_lt_of_step? {step : Step} (h : step? flags state items tokens = some step)
    (hrest : step.rest? = some rest) : rest.length < tokens.length := by
  have hleft {taken : Step} {left : List Token} (htaken : some taken = some step)
      (htakenRest : taken.rest? = some left) (hlt : left.length < tokens.length) :
      rest.length < tokens.length := by
    cases htaken
    rw [htakenRest] at hrest
    cases hrest
    exact hlt
  unfold step? at h
  split at h
  · exact hleft h rfl (Flags.length_lt_of_skipped? ‹_›)
  · rename_i hmark
    obtain ⟨⟨parts, tail⟩, hrepeated, heq⟩ := Option.map_eq_some_iff.1 h
    refine hleft (congrArg some heq) rfl ?_
    exact Nat.lt_of_lt_of_le (leavesLess_repeated? _ _ _ _ _ _ hrepeated) (length_lt_of_mark? hmark)
  · split at h
    · cases h
      cases hrest
    · cases h
      cases hrest
    · cases h
      cases hrest
    · exact hleft h rfl (Nat.lt_succ_self _)
    · exact hleft h rfl (Nat.lt_succ_self _)
    · exact hleft h rfl (Nat.lt_succ_self _)
    · obtain ⟨⟨pattern, tail⟩, hclass, heq⟩ := Option.map_eq_some_iff.1 h
      exact hleft (congrArg some heq) rfl (leavesLess_class? _ _ _ _ hclass)
    · obtain ⟨⟨item, tail⟩, hescape, heq⟩ := Option.map_eq_some_iff.1 h
      exact hleft (congrArg some heq) rfl (leavesLess_escape? _ _ _ _ _ _ hescape)
    · obtain ⟨⟨opening, tail⟩, hopening, heq⟩ := Option.bind_eq_some_iff.1 h
      have hlt := leavesLess_opening? _ _ _ _ _ hopening
      dsimp only at heq
      split at heq
      · exact hleft heq rfl hlt
      · obtain ⟨pattern, -, hnext⟩ := Option.map_eq_some_iff.1 heq
        exact hleft (congrArg some hnext) rfl hlt
      · exact hleft heq rfl hlt
      · exact hleft heq rfl hlt
    · exact hleft h rfl (Nat.lt_succ_self _)

/-! ## Sequences and alternatives -/

/-- Reading under a bound leaves no more than was given. -/
structure LeavesNoMore (n : Nat) : Prop where
  alternatives : ∀ {flags state tokens pattern left rest},
    alternatives? n flags state tokens = some (pattern, left, rest) → rest.length ≤ tokens.length
  parts : ∀ {flags state items tokens pattern left rest},
    parts? n flags state items tokens = some (pattern, left, rest) → rest.length ≤ tokens.length

/-- Behind a bar, or without one, no more is left than was given. -/
theorem LeavesNoMore.afterBar (h : LeavesNoMore n) {flags : Flags} {state left : State}
    {pattern : Pattern}
    (hread : afterBar? (parts? n flags · [] ·) state tokens = some (pattern, left, rest)) :
    rest.length ≤ tokens.length := by
  unfold afterBar? at hread
  split at hread
  · exact Nat.le_succ_of_le (h.parts hread)
  · cases hread
    exact Nat.le_refl _

/-- A step more leaves no more either. -/
theorem LeavesNoMore.succ (ih : LeavesNoMore n) : LeavesNoMore (n + 1) where
  alternatives {flags state tokens pattern left rest} h := by
    unfold alternatives? at h
    obtain ⟨⟨first, between, tail⟩, hfirst, hrest⟩ := Option.bind_eq_some_iff.1 h
    have hle := ih.parts hfirst
    dsimp only at hrest
    split at hrest
    · obtain ⟨⟨others, last, behind⟩, hothers, heq⟩ := Option.bind_eq_some_iff.1 hrest
      cases heq
      exact Nat.le_trans (ih.alternatives hothers) (Nat.le_of_succ_le hle)
    · cases hrest
      exact hle
  parts {flags state items tokens pattern left rest} h := by
    unfold parts? at h
    obtain ⟨step, hstep, hrest⟩ := Option.bind_eq_some_iff.1 h
    dsimp only at hrest
    split at hrest
    · cases hrest
      exact Nat.le_refl _
    · have hlt := length_lt_of_step? hstep rfl
      exact Nat.le_trans (ih.parts hrest) (Nat.le_of_lt hlt)
    · -- a group: its body, its closing parenthesis and the parts behind it
      have hlt := length_lt_of_step? hstep rfl
      simp only [Option.bind_eq_bind, Option.bind_eq_some_iff] at hrest
      obtain ⟨entered, -, ⟨body, inside, tail⟩, hbody, group, -, last, hclosing, hlast⟩ := hrest
      have htail := ih.alternatives hbody
      have hbehind := length_lt_of_afterClosing? hclosing
      have hend := ih.parts hlast
      dsimp only at hbehind
      omega
    · -- a condition: two sequences, the second one perhaps left out, and the parts behind them
      have hlt := length_lt_of_step? hstep rfl
      simp only [Option.bind_eq_bind, Option.bind_eq_some_iff] at hrest
      obtain ⟨⟨present, between, tail⟩, hpresent, ⟨absent, behind, next⟩, habsent, last, hclosing,
        hlast⟩ := hrest
      have htail := ih.parts hpresent
      have hnext := ih.afterBar habsent
      have hbehind := length_lt_of_afterClosing? hclosing
      have hend := ih.parts hlast
      dsimp only at hbehind hnext
      omega

/-- **Sequences and alternatives leave no more than they were given.** -/
theorem leavesNoMore (n : Nat) : LeavesNoMore n := by
  induction n with
  | zero =>
    constructor
    · intro flags state tokens pattern left rest h
      unfold alternatives? at h
      cases h
    · intro flags state items tokens pattern left rest h
      unfold parts? at h
      cases h
  | succ n ih => exact ih.succ

/-- Reading under two bounds gives the same where both of them are large enough: twice the number
of pieces and one step more for a sequence, and another one for alternatives. -/
structure ReadAlike (n m : Nat) : Prop where
  alternatives : ∀ flags state tokens, 2 * tokens.length + 2 ≤ n → 2 * tokens.length + 2 ≤ m →
    alternatives? n flags state tokens = alternatives? m flags state tokens
  parts : ∀ flags state items tokens, 2 * tokens.length + 1 ≤ n → 2 * tokens.length + 1 ≤ m →
    parts? n flags state items tokens = parts? m flags state items tokens

/-- A step more under both bounds: what it leaves is so short that both are large enough for it. -/
theorem ReadAlike.succ (ih : ReadAlike n m) : ReadAlike (n + 1) (m + 1) where
  alternatives flags state tokens hn hm := by
    unfold alternatives?
    rw [ih.parts flags state [] tokens (by omega) (by omega)]
    refine Option.bind_congr fun read hfirst => ?_
    obtain ⟨first, left, rest⟩ := read
    have hle := (leavesNoMore m).parts hfirst
    dsimp only
    split
    · simp only [List.length_cons] at hle
      rw [ih.alternatives _ _ _ (by omega) (by omega)]
    · rfl
  parts flags state items tokens hn hm := by
    have hparts {flags state items rest} (h : rest.length < tokens.length) :
        parts? n flags state items rest = parts? m flags state items rest :=
      ih.parts _ _ _ _ (by omega) (by omega)
    unfold parts?
    refine Option.bind_congr fun step hstep => ?_
    dsimp only
    split
    · rfl
    · exact hparts (length_lt_of_step? hstep rfl)
    · have hlt := length_lt_of_step? hstep rfl
      refine Option.bind_congr fun entered _ => ?_
      rw [ih.alternatives _ _ _ (by omega) (by omega)]
      refine Option.bind_congr fun read hbody => Option.bind_congr fun group _ =>
        Option.bind_congr fun last hclosing => hparts ?_
      have htail := (leavesNoMore m).alternatives hbody
      have hbehind := length_lt_of_afterClosing? hclosing
      omega
    · have hlt := length_lt_of_step? hstep rfl
      rw [hparts hlt]
      refine Option.bind_congr fun read hpresent => ?_
      obtain ⟨present, between, tail⟩ := read
      have htail := (leavesNoMore m).parts hpresent
      have habsent : afterBar? (parts? n flags · [] ·) between tail =
          afterBar? (parts? m flags · [] ·) between tail := by
        unfold afterBar?
        split
        · rw [List.length_cons] at htail
          exact hparts (by omega)
        · rfl
      dsimp only
      rw [habsent]
      refine Option.bind_congr fun read habsent => Option.bind_congr fun last hclosing => ?_
      obtain ⟨absent, behind, next⟩ := read
      have hnext := (leavesNoMore m).afterBar habsent
      have hbehind := length_lt_of_afterClosing? hclosing
      dsimp only at hbehind ⊢
      exact hparts (by omega)

theorem readAlike (n m : Nat) : ReadAlike n m := by
  induction n generalizing m with
  | zero => exact ⟨fun _ _ _ h => by omega, fun _ _ _ _ h => by omega⟩
  | succ n ih =>
    cases m with
    | zero => exact ⟨fun _ _ _ _ h => by omega, fun _ _ _ _ _ h => by omega⟩
    | succ m => exact (ih m).succ

/-- **A pattern** is read under a bound that is never met: every greater one gives the same
result. -/
theorem alternatives?_eq (flags : Flags) (state : State) (hn : 2 * tokens.length + 2 ≤ n) :
    alternatives? n flags state tokens =
      alternatives? (2 * tokens.length + 2) flags state tokens :=
  (readAlike _ _).alternatives flags state tokens hn (Nat.le_refl _)

end Parser

end HeaderApi.Pattern

/-! ## Templates -/

namespace HeaderApi.Regex

open Pattern Pattern.Token

variable {n m : Nat} {tokens : List Token}

/-- What follows an escape of a template is no longer than what follows its letter. -/
theorem leavesLess_templateEscape? (regex : Regex) (c : Char) (tokens : List Token) :
    LeavesLess (tokens.length + 1) (regex.templateEscape? c tokens) := by
  unfold templateEscape?
  split
  · split
    · rename_i rest
      refine (leavesLess_name? _ rest).bind fun name tail hlt => ?_
      dsimp only
      cases regex.templateGroup? name with
      | none => exact .none
      | some piece => exact .some (Nat.lt_succ_of_lt (Nat.lt_succ_of_lt hlt))
    · exact .none
  · split
    · split
      · exact (leavesLess_octalCode? c tokens).map fun code =>
          [TemplatePiece.char (Char.ofNat code)]
      · have hle := length_takePlain_le isNumeral 1 tokens
        dsimp only
        split
        · exact .some (Nat.lt_succ_of_le hle)
        · exact .none
    · split
      · exact .some (Nat.lt_succ_self _)
      · split
        · exact .none
        · exact .some (Nat.lt_succ_self _)

/-- **A template** is read under a bound that is never met. -/
theorem templatePieces?_eq (regex : Regex) (hn : tokens.length ≤ n) (hm : tokens.length ≤ m) :
    regex.templatePieces? n tokens = regex.templatePieces? m tokens := by
  induction n generalizing m tokens with
  | zero =>
    obtain rfl := List.length_eq_zero_iff.1 (Nat.le_zero.1 hn)
    rw [templatePieces?, templatePieces?]
  | succ n ih =>
    match tokens, m with
    | [], m => rw [templatePieces?, templatePieces?]
    | .plain c :: rest, m + 1 =>
      rw [templatePieces?, templatePieces?,
        ih (Nat.le_of_succ_le_succ hn) (Nat.le_of_succ_le_succ hm)]
    | .escape c :: rest, m + 1 =>
      rw [templatePieces?, templatePieces?]
      refine Option.bind_congr fun read hread => ?_
      have hle := leavesLess_templateEscape? regex c rest read.1 read.2 hread
      dsimp only
      rw [List.length_cons] at hn hm
      rw [ih (m := m) (by omega) (by omega)]

end HeaderApi.Regex
