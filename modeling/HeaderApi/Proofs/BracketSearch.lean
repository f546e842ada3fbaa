import HeaderApi.Proofs.Blocks
import HeaderApi.Token.Block
import Mathlib.Order.Bounds.Basic

/-!
# The search for a closing bracket

The bracket that is found is the first one outside of literals behind which as many brackets are
closed as were open.  Behind text that ends outside of literals the search goes on from the depth
that it has reached, so a list over several lines ends where the search in the joined lines finds
its end.
-/

namespace HeaderApi

open Text

namespace Source

variable {opening closing : Char} {quoting quoting' : Quoting} {depth depth' : Int}
  {text front inside behind rest : List Char} {c : Char}

/-! ## The depth of the brackets -/

/-- The state after some characters. -/
def Quoting.after : Quoting → List Char → Quoting
  | quoting, [] => quoting
  | quoting, c :: cs => (quoting.next c).after cs

theorem Quoting.after_append (quoting : Quoting) (front rest : List Char) :
    quoting.after (front ++ rest) = (quoting.after front).after rest := by
  induction front generalizing quoting with
  | nil => rfl
  | cons c front ih => exact ih (quoting.next c)

/-- The characters of a text that stand outside of literals. -/
def Quoting.plain : Quoting → List Char → List Char
  | _, [] => []
  | .outside, c :: cs =>
    if isQuote c then (Quoting.inside c).plain cs else c :: Quoting.outside.plain cs
  | .inside quote, c :: cs => (Quoting.next c (.inside quote)).plain cs
  | .escaped quote, _ :: cs => (Quoting.inside quote).plain cs

/-- The depth behind a text: the brackets that it opens outside of literals are added, and those
that it closes are taken off. -/
def depthBehind (opening closing : Char) (quoting : Quoting) (depth : Int) (text : List Char) :
    Int :=
  depth + (quoting.plain text).count opening - (quoting.plain text).count closing

theorem depthBehind_nil (opening closing : Char) (quoting : Quoting) (depth : Int) :
    depthBehind opening closing quoting depth [] = depth := by
  simp [depthBehind, Quoting.plain]

/-- A greater depth in front of a text is greater by as much behind it. -/
theorem depthBehind_add (more : Int) :
    depthBehind opening closing quoting (depth + more) text =
      depthBehind opening closing quoting depth text + more := by
  unfold depthBehind
  omega

/-- Two brackets that the search tells from each other and from quotes. -/
structure IsBrackets (opening closing : Char) : Prop where
  ne : opening ≠ closing
  opening : isQuote opening = false
  closing : isQuote closing = false

theorem isBrackets_round : IsBrackets '(' ')' := ⟨by decide, by decide, by decide⟩

/-- A quote begins a literal. -/
theorem depthBehind_quote (hc : isQuote c = true) (text : List Char) :
    depthBehind opening closing .outside depth (c :: text) =
      depthBehind opening closing (.inside c) depth text := by
  rw [depthBehind, Quoting.plain, if_pos hc, depthBehind]

/-- An opening bracket in code adds one to the depth. -/
theorem depthBehind_opening (h : IsBrackets opening closing) (text : List Char) :
    depthBehind opening closing .outside depth (opening :: text) =
      depthBehind opening closing .outside (depth + 1) text := by
  rw [depthBehind, Quoting.plain, h.opening, if_neg Bool.false_ne_true, List.count_cons_self,
    List.count_cons_of_ne h.ne, depthBehind]
  omega

/-- A closing bracket in code takes one from the depth. -/
theorem depthBehind_closing (h : IsBrackets opening closing) (text : List Char) :
    depthBehind opening closing .outside depth (closing :: text) =
      depthBehind opening closing .outside (depth - 1) text := by
  rw [depthBehind, Quoting.plain, h.closing, if_neg Bool.false_ne_true, List.count_cons_self,
    List.count_cons_of_ne h.ne.symm, depthBehind]
  omega

/-- In code a character that is neither a bracket nor a quote leaves the depth as it is. -/
theorem depthBehind_of_ne (hc : isQuote c = false) (hopening : c ≠ opening)
    (hclosing : c ≠ closing) (text : List Char) :
    depthBehind opening closing .outside depth (c :: text) =
      depthBehind opening closing .outside depth text := by
  rw [depthBehind, Quoting.plain, hc, if_neg Bool.false_ne_true, List.count_cons_of_ne hopening,
    List.count_cons_of_ne hclosing, depthBehind]

/-- One character of the search: it is the closing bracket, or the search goes on behind it at the
depth that it leads to. -/
theorem findClosingFrom_cons_cases (h : IsBrackets opening closing) (quoting : Quoting)
    (depth : Int) (c : Char) :
    (quoting = .outside ∧ c = closing ∧ depth = 1 ∧
      ∀ rest, findClosingFrom opening closing quoting depth (c :: rest) = .found [] rest) ∨
    ∃ depth', (1 ≤ depth → 1 ≤ depth') ∧
      (∀ rest, depthBehind opening closing quoting depth (c :: rest) =
        depthBehind opening closing (quoting.next c) depth' rest) ∧
      ∀ rest, findClosingFrom opening closing quoting depth (c :: rest) =
        (findClosingFrom opening closing (quoting.next c) depth' rest).cons c := by
  -- In a literal only the quoting changes; outside each branch of the search is one case.
  cases quoting with
  | inside quote => exact .inr ⟨depth, id, fun _ => rfl, fun _ => rfl⟩
  | escaped quote => exact .inr ⟨depth, id, fun _ => rfl, fun _ => rfl⟩
  | outside =>
    by_cases hquote : isQuote c = true
    · rw [Quoting.next, if_pos hquote]
      refine .inr ⟨depth, id, depthBehind_quote hquote, fun rest => ?_⟩
      rw [findClosingFrom, if_pos hquote]
    · rw [Quoting.next, if_neg hquote]
      by_cases hopening : c = opening
      · subst hopening
        refine .inr ⟨depth + 1, by omega, depthBehind_opening h, fun rest => ?_⟩
        rw [findClosingFrom, if_neg hquote, if_pos rfl]
      · by_cases hclosing : c = closing
        · subst hclosing
          by_cases hdepth : depth = 1
          · refine .inl ⟨rfl, rfl, hdepth, fun rest => ?_⟩
            rw [findClosingFrom, if_neg hquote, if_neg hopening, if_pos rfl, if_pos (by omega)]
          · refine .inr ⟨depth - 1, by omega, depthBehind_closing h, fun rest => ?_⟩
            rw [findClosingFrom, if_neg hquote, if_neg hopening, if_pos rfl, if_neg (by omega)]
        · refine .inr ⟨depth, id,
            depthBehind_of_ne (Bool.eq_false_iff.2 hquote) hopening hclosing, fun rest => ?_⟩
          rw [findClosingFrom, if_neg hquote, if_neg hopening, if_neg hclosing]

/-! ## What the search finds -/

/-- What an outcome says about the text that was searched: it stays at a depth of at least one up to
the closing bracket behind which the depth is zero, or up to its end, where the depth is the one
reached. -/
def Closing.IsExact (opening closing : Char) (quoting : Quoting) (depth : Int)
    (text : List Char) : Closing → Prop
  | .found inside after =>
    text = inside ++ closing :: after ∧ quoting.after inside = .outside ∧
      depthBehind opening closing quoting depth (inside ++ [closing]) = 0 ∧
      ∀ front, front <+: inside → 1 ≤ depthBehind opening closing quoting depth front
  | .missing depth' =>
    depth' = depthBehind opening closing quoting depth text ∧
      ∀ front, front <+: text → 1 ≤ depthBehind opening closing quoting depth front

/-- An outcome stays exact with one more character in front. -/
theorem Closing.IsExact.cons {outcome : Closing}
    (h : outcome.IsExact opening closing (quoting.next c) depth' text)
    (hcons : ∀ rest, depthBehind opening closing quoting depth (c :: rest) =
      depthBehind opening closing (quoting.next c) depth' rest) (hdepth : 1 ≤ depth) :
    (outcome.cons c).IsExact opening closing quoting depth (c :: text) := by
  have hprefix {whole : List Char} (hwhole : ∀ front, front <+: whole →
      1 ≤ depthBehind opening closing (quoting.next c) depth' front) :
      ∀ front, front <+: c :: whole → 1 ≤ depthBehind opening closing quoting depth front := by
    rintro (_ | ⟨d, front⟩) hfront
    · rwa [depthBehind_nil]
    · obtain ⟨rfl, hlater⟩ := List.cons_prefix_cons.1 hfront
      rw [hcons]
      exact hwhole front hlater
  cases outcome with
  | found inside behind =>
    obtain ⟨rfl, houtside, hzero, hinside⟩ := h
    refine ⟨rfl, houtside, ?_, hprefix hinside⟩
    rw [List.cons_append, hcons, hzero]
  | missing depth'' =>
    obtain ⟨rfl, htext⟩ := h
    exact ⟨(hcons text).symm, hprefix htext⟩

/-- The search in any state tells exactly where the depth gets to zero. -/
theorem isExact_findClosingFrom (h : IsBrackets opening closing) (hdepth : 1 ≤ depth)
    (quoting : Quoting) (text : List Char) :
    (findClosingFrom opening closing quoting depth text).IsExact opening closing quoting depth
      text := by
  induction text generalizing quoting depth with
  | nil =>
    rw [findClosingFrom]
    refine ⟨(depthBehind_nil ..).symm, fun front hfront => ?_⟩
    rwa [List.prefix_nil.1 hfront, depthBehind_nil]
  | cons c text ih =>
    rcases findClosingFrom_cons_cases h quoting depth c with
      ⟨rfl, rfl, rfl, hfind⟩ | ⟨depth', hpos, hcons, hfind⟩
    · rw [hfind]
      refine ⟨rfl, rfl, ?_, fun front hfront => ?_⟩
      · rw [List.nil_append, depthBehind_closing h, depthBehind_nil, Int.sub_self]
      · rw [List.prefix_nil.1 hfront, depthBehind_nil]
    · rw [hfind]
      exact (ih (hpos hdepth) _).cons hcons hdepth

/-- A position outside of literals behind which the depth is zero. -/
structure IsZeroAt (opening closing : Char) (depth : Int) (text : List Char) (i : Nat) : Prop where
  lt : i < text.length
  outside : Quoting.outside.after (text.take i) = .outside
  zero : depthBehind opening closing .outside depth (text.take (i + 1)) = 0

/-- A place where the depth is zero stays one when the text goes on. -/
theorem IsZeroAt.append {i : Nat} (h : IsZeroAt opening closing depth text i)
    (more : List Char) : IsZeroAt opening closing depth (text ++ more) i := by
  obtain ⟨hlt, houtside, hzero⟩ := h
  have hshort : i + 1 ≤ text.length := hlt
  refine ⟨Nat.lt_of_lt_of_le hlt (by simp), ?_, ?_⟩
  · rwa [List.take_append_of_le_length hlt.le]
  · rwa [List.take_append_of_le_length hshort]

/-- What is found is the first place where the depth is zero. -/
theorem isLeast_of_found
    (h : (Closing.found inside behind).IsExact opening closing .outside depth text) :
    IsLeast {i | IsZeroAt opening closing depth text i} inside.length := by
  obtain ⟨rfl, houtside, hzero, hinside⟩ := h
  constructor
  · refine ⟨by simp, ?_, ?_⟩
    · rwa [List.take_left']
      rfl
    · rwa [List.append_cons, List.take_left']
      simp
  · rintro i ⟨-, -, hi⟩
    refine Nat.le_of_not_lt fun hlt => ?_
    have hshort : i + 1 ≤ inside.length := hlt
    have hpos := hinside (inside.take (i + 1)) (List.take_prefix _ _)
    rw [List.take_append_of_le_length hshort] at hi
    omega

/-- Where nothing is found the depth is zero nowhere. -/
theorem not_isZeroAt_of_missing
    (h : (Closing.missing depth').IsExact opening closing .outside depth text) (i : Nat) :
    ¬IsZeroAt opening closing depth text i := by
  rintro ⟨-, -, hi⟩
  have hpos := h.2 (text.take (i + 1)) (List.take_prefix _ _)
  omega

/-- **The closing bracket is the first one behind which the depth is zero.** -/
theorem index?_findClosing_iff (h : IsBrackets opening closing) (hdepth : 1 ≤ depth)
    (text : List Char) (i : Nat) :
    (findClosing opening closing depth text).index? = some i ↔
      IsLeast {i | IsZeroAt opening closing depth text i} i := by
  have hexact := isExact_findClosingFrom h hdepth .outside text
  rw [findClosing]
  cases hfind : findClosingFrom opening closing .outside depth text with
  | found inside behind =>
    rw [hfind] at hexact
    have hleast := isLeast_of_found hexact
    constructor
    · intro hi
      rwa [← Option.some.inj hi]
    · intro hi
      rw [hi.unique hleast]
      rfl
  | missing depth' =>
    rw [hfind] at hexact
    constructor
    · intro hi
      cases hi
    · intro hi
      exact absurd hi.1 (not_isZeroAt_of_missing hexact i)

/-! ## Going on behind a text -/

/-- The search goes on behind text without the closing bracket. -/
theorem findClosingFrom_append (h : IsBrackets opening closing)
    (hmissing : findClosingFrom opening closing quoting depth text = .missing depth')
    (rest : List Char) :
    findClosingFrom opening closing quoting depth (text ++ rest) =
      text.foldr Closing.cons
        (findClosingFrom opening closing (quoting.after text) depth' rest) := by
  induction text generalizing quoting depth with
  | nil =>
    cases quoting with
    | _ => cases hmissing; rfl
  | cons c text ih =>
    rcases findClosingFrom_cons_cases h quoting depth c with
      ⟨-, -, -, hfind⟩ | ⟨depth'', -, -, hfind⟩
    · rw [hfind] at hmissing
      cases hmissing
    · rw [hfind] at hmissing
      rw [List.cons_append, hfind, ih (Closing.cons_eq_missing.1 hmissing)]
      rfl

/-- A search that fails on a text goes on with its depth on the text behind it. -/
theorem findClosing_append (h : IsBrackets opening closing)
    (hmissing : findClosing opening closing depth front = .missing depth')
    (houtside : Quoting.outside.after front = .outside) (rest : List Char) :
    findClosing opening closing depth (front ++ rest) =
      front.foldr Closing.cons (findClosing opening closing depth' rest) := by
  rw [findClosing, findClosingFrom_append h hmissing, houtside]
  rfl

/-- Characters in front of a search put off the place that it finds. -/
theorem index?_foldr_cons (front : List Char) (closing : Closing) :
    (front.foldr Closing.cons closing).index? = closing.index?.map (front.length + ·) := by
  cases closing with
  | found inside behind =>
    rw [foldr_cons_found]
    exact congrArg some List.length_append
  | missing depth =>
    rw [foldr_cons_missing]
    rfl

/-- Characters in front of a search leave its depth as it is. -/
theorem depth_foldr_cons (front : List Char) (closing : Closing) :
    (front.foldr Closing.cons closing).depth = closing.depth := by
  cases closing with
  | found inside behind =>
    rw [foldr_cons_found]
    rfl
  | missing depth => rw [foldr_cons_missing]

end Source

open Source

/-! ## Lists over several lines -/

namespace Block

variable {opening closing : Char} {depth : Int} {text : Line} {rest left : List Line}
  {list : Enclosed}

/-- Joined lines are searched one behind the other. -/
theorem findClosing_joinLines {depth' : Int} (h : IsBrackets opening closing)
    (hopening : opening ≠ '\n') (hclosing : closing ≠ '\n')
    (hmissing : findClosing opening closing depth text = .missing depth')
    (houtside : Quoting.outside.after text = .outside) {lines : List Line} (hne : lines ≠ []) :
    findClosing opening closing depth (joinLines (text :: lines)) =
      (text ++ ['\n']).foldr Closing.cons
        (findClosing opening closing depth' (joinLines lines)) := by
  rw [joinLines_cons text hne, findClosing_append h hmissing houtside, List.foldr_append]
  have hfeed : findClosing opening closing depth' ('\n' :: joinLines lines) =
      (findClosing opening closing depth' (joinLines lines)).cons '\n' := by
    rw [findClosing, findClosingFrom, if_neg (by decide), if_neg hopening.symm,
      if_neg hclosing.symm]
    rfl
  rw [hfeed]
  rfl

/-- What reading a list takes from the lines behind its first text.  The bracket that closes it is
on the last of these lines, and the search in the joined lines finds it there when no line before it
ends in a literal. -/
structure Enclosed.EndsIn (opening closing : Char) (depth : Int) (text : Line) (passed : List Line)
    (list : Enclosed) : Prop where
  length_inside : list.inside.length = passed.length + 1
  join : joinLines list.inside ++ closing :: list.trailer = joinLines (text :: passed.map trim)
  found : (∀ line ∈ (text :: passed.map trim).dropLast, Quoting.outside.after line = .outside) →
    findClosing opening closing depth (joinLines (text :: passed.map trim)) =
      .found (joinLines list.inside) list.trailer

/-- What is found on the first line needs no other line. -/
theorem endsIn_of_found {inside behind : Line}
    (hfound : findClosing opening closing depth text = .found inside behind) :
    Enclosed.EndsIn opening closing depth text [] ⟨[inside], behind⟩ where
  length_inside := rfl
  join := by
    rw [List.map_nil, joinLines_singleton, joinLines_singleton, findClosingFrom_eq_found hfound]
  found _ := by rw [List.map_nil, joinLines_singleton, joinLines_singleton, hfound]

/-- A list that is read ends behind some of the lines, and the others are left. -/
theorem exists_passed_of_enclosed (h : IsBrackets opening closing) (hopening : opening ≠ '\n')
    (hclosing : closing ≠ '\n')
    (hread : enclosed opening closing depth text rest = some (list, left)) :
    ∃ passed, rest = passed ++ left ∧ list.EndsIn opening closing depth text passed := by
  induction rest generalizing depth text list with
  | nil =>
    rw [enclosed] at hread
    split at hread
    · rename_i hfound
      cases hread
      exact ⟨[], rfl, endsIn_of_found hfound⟩
    · cases hread
  | cons next rest ih =>
    rw [enclosed] at hread
    split at hread
    · rename_i hfound
      cases hread
      exact ⟨[], rfl, endsIn_of_found hfound⟩
    · rename_i depth' hmissing
      obtain ⟨⟨later, left'⟩, hlater, heq⟩ := Option.map_eq_some_iff.1 hread
      cases heq
      -- This line is passed; the list ends in the lines below, searched from the depth behind it.
      obtain ⟨passed, rfl, hlength, hjoin, hfound⟩ := ih hlater
      have hinside : later.inside ≠ [] := List.ne_nil_of_length_pos (by omega)
      refine ⟨next :: passed, rfl, ?_, ?_, fun houtside => ?_⟩
      · simp [hlength]
      · rw [joinLines_cons text hinside, List.map_cons,
          joinLines_cons text (List.cons_ne_nil _ _), ← hjoin, List.append_assoc, List.cons_append]
      · rw [List.map_cons, List.dropLast_cons_cons] at houtside
        obtain ⟨htext, houtside⟩ := List.forall_mem_cons.1 houtside
        -- The search of the joined lines passes this line alone, and goes on at `depth'`.
        rw [List.map_cons, findClosing_joinLines h hopening hclosing hmissing htext
          (List.cons_ne_nil _ _), hfound houtside, foldr_cons_found, joinLines_cons text hinside,
          List.append_assoc]
        rfl

/-- A list that can not be read has no end in all of its lines together. -/
theorem exists_missing_of_enclosed (h : IsBrackets opening closing) (hopening : opening ≠ '\n')
    (hclosing : closing ≠ '\n') (hread : enclosed opening closing depth text rest = none)
    (houtside : ∀ line ∈ text :: rest.map trim, Quoting.outside.after line = .outside) :
    ∃ depth', findClosing opening closing depth (joinLines (text :: rest.map trim)) =
      .missing depth' := by
  induction rest generalizing depth text with
  | nil =>
    rw [enclosed] at hread
    split at hread
    · cases hread
    · rename_i depth' hmissing
      exact ⟨depth', by rw [List.map_nil, joinLines_singleton, hmissing]⟩
  | cons next rest ih =>
    rw [enclosed] at hread
    split at hread
    · cases hread
    · rename_i depth' hmissing
      obtain ⟨htext, houtside⟩ := List.forall_mem_cons.1 houtside
      obtain ⟨depth'', hlater⟩ := ih (Option.map_eq_none_iff.1 hread) houtside
      refine ⟨depth'', ?_⟩
      rw [List.map_cons, findClosing_joinLines h hopening hclosing hmissing htext
        (List.cons_ne_nil _ _), hlater, foldr_cons_missing]

/-- A list in parentheses is one with round brackets, read from depth one. -/
theorem exists_parenthesized (h : parenthesized text rest = .ok (list, left)) :
    enclosed '(' ')' 1 text rest = some (list, left) := by
  rw [parenthesized] at h
  split at h
  · rename_i hread
    cases h
    exact hread
  · cases h

/-- The parenthesis that closes a list is the first one in the joined lines behind which as many are
closed as were open. -/
theorem exists_isLeast_of_parenthesized (h : parenthesized text rest = .ok (list, left)) :
    ∃ passed, rest = passed ++ left ∧
      joinLines list.inside ++ ')' :: list.trailer = joinLines (text :: passed.map trim) ∧
      ((∀ line ∈ (text :: passed.map trim).dropLast, Quoting.outside.after line = .outside) →
        IsLeast {i | IsZeroAt '(' ')' 1 (joinLines (text :: passed.map trim)) i}
          (joinLines list.inside).length) := by
  obtain ⟨passed, rfl, hends⟩ := exists_passed_of_enclosed isBrackets_round (by decide) (by decide)
    (exists_parenthesized h)
  refine ⟨passed, rfl, hends.join, fun houtside => ?_⟩
  refine (index?_findClosing_iff isBrackets_round (Int.le_refl 1) _ _).1 ?_
  rw [hends.found houtside]
  rfl

/-- A list ends exactly if there is such a parenthesis. -/
theorem exists_parenthesized_iff
    (houtside : ∀ line ∈ text :: rest.map trim, Quoting.outside.after line = .outside) :
    (∃ list left, parenthesized text rest = .ok (list, left)) ↔
      ∃ i, IsZeroAt '(' ')' 1 (joinLines (text :: rest.map trim)) i := by
  constructor
  · rintro ⟨list, left, h⟩
    obtain ⟨passed, rfl, -, hleast⟩ := exists_isLeast_of_parenthesized h
    -- The lines behind the list change nothing: its parenthesis is the first one of those passed.
    have hpassed : ∀ line ∈ text :: passed.map trim, Quoting.outside.after line = .outside :=
      fun line hline => houtside line (by
        rw [List.map_append, ← List.cons_append]
        exact List.mem_append_left _ hline)
    have hzero := (hleast fun line hline => hpassed line (List.mem_of_mem_dropLast hline)).1
    refine ⟨(joinLines list.inside).length, ?_⟩
    by_cases hleft : left = []
    · rw [hleft, List.append_nil]
      exact hzero
    · rw [List.map_append, ← List.cons_append, joinLines_append (List.cons_ne_nil _ _)
        (by simpa using hleft)]
      exact hzero.append _
  · rintro ⟨i, hi⟩
    cases hread : enclosed '(' ')' 1 text rest with
    | some result => exact ⟨result.1, result.2, by rw [parenthesized, hread]⟩
    | none =>
      -- A list that does not end has searched all lines in vain, and the search is exact.
      obtain ⟨depth', hmissing⟩ :=
        exists_missing_of_enclosed isBrackets_round (by decide) (by decide) hread houtside
      have hexact := isExact_findClosingFrom isBrackets_round (Int.le_refl 1) .outside
        (joinLines (text :: rest.map trim))
      rw [← findClosing, hmissing] at hexact
      exact absurd hi (not_isZeroAt_of_missing hexact i)

/-- **The search for a closing bracket is exact and may go on behind any text.**  It finds the first
position outside of literals behind which the depth of the brackets is zero, and reaches a depth of
at least one where there is none.  Behind a text without this position that ends outside of literals
it goes on from the depth that it has reached.  So the parenthesis that closes a list over several
lines is the first one in the lines that are read, joined with line feeds, when none of them but the
last ends in a literal. -/
theorem findClosing_isLeast {opening closing : Char} (h : IsBrackets opening closing) {depth : Int}
    (hdepth : 1 ≤ depth) (text : List Char) :
    (∀ i, (findClosing opening closing depth text).index? = some i ∧
        (findClosing opening closing depth text).depth = 0 ↔
      IsLeast {i | IsZeroAt opening closing depth text i} i) ∧
    ((findClosing opening closing depth text).index? = none →
      (findClosing opening closing depth text).depth =
        depthBehind opening closing .outside depth text ∧
      1 ≤ (findClosing opening closing depth text).depth) ∧
    (∀ depth', findClosing opening closing depth text = .missing depth' →
      Quoting.outside.after text = .outside → ∀ rest,
      (findClosing opening closing depth (text ++ rest)).index? =
        (findClosing opening closing depth' rest).index?.map (text.length + ·) ∧
      (findClosing opening closing depth (text ++ rest)).depth =
        (findClosing opening closing depth' rest).depth) ∧
    (∀ rest list left, parenthesized text rest = .ok (list, left) → ∃ passed,
      rest = passed ++ left ∧
      joinLines list.inside ++ ')' :: list.trailer = joinLines (text :: passed.map trim) ∧
      ((∀ line ∈ (text :: passed.map trim).dropLast, Quoting.outside.after line = .outside) →
        IsLeast {i | IsZeroAt '(' ')' 1 (joinLines (text :: passed.map trim)) i}
          (joinLines list.inside).length)) ∧
    ∀ rest, (∀ line ∈ text :: rest.map trim, Quoting.outside.after line = .outside) →
      ((∃ list left, parenthesized text rest = .ok (list, left)) ↔
        ∃ i, IsZeroAt '(' ')' 1 (joinLines (text :: rest.map trim)) i) := by
  have hexact := isExact_findClosingFrom h hdepth .outside text
  refine ⟨fun i => ?_, fun hindex => ?_, ?_, ?_, ?_⟩
  · rw [← index?_findClosing_iff h hdepth, and_iff_left_iff_imp]
    intro hi
    cases hfind : findClosing opening closing depth text with
    | found inside behind => rfl
    | missing depth' =>
      rw [hfind] at hi
      cases hi
  · rw [← findClosing] at hexact
    cases hfind : findClosing opening closing depth text with
    | found inside behind =>
      rw [hfind] at hindex
      cases hindex
    | missing depth' =>
      rw [hfind] at hexact
      obtain ⟨rfl, hprefix⟩ := hexact
      exact ⟨rfl, hprefix text List.prefix_rfl⟩
  · intro depth' hmissing houtside rest
    rw [findClosing_append h hmissing houtside]
    exact ⟨index?_foldr_cons .., depth_foldr_cons ..⟩
  · intro rest list left hread
    exact exists_isLeast_of_parenthesized hread
  · intro rest houtside
    exact exists_parenthesized_iff houtside

/-- The first text of a list, with parentheses in a literal and in a call. -/
def openText : Line := "char c = ')', int d = f(1),".toList

/-- The lines below it, with an escaped quote in front of a parenthesis in a literal. -/
def listLines : List Line :=
  ["  const char *s = \"\\\")\",", "  int b) const;", "int after;"].map String.toList

theorem findClosing_isLeast_lines :
    IsBrackets '(' ')' ∧ (1 : Int) ≤ 1 ∧
      IsLeast {i | IsZeroAt '(' ')' 1 (openText ++ " int b) const;".toList) i} 33 ∧
      (findClosing '(' ')' 1 (openText ++ " int b) const;".toList)).index? =
        (findClosing '(' ')' 1 " int b) const;".toList).index?.map (openText.length + ·) ∧
      ∃ list left passed, parenthesized openText listLines = .ok (list, left) ∧
        listLines = passed ++ left ∧ passed.length = 2 ∧
        (∀ line ∈ (openText :: passed.map trim).dropLast,
          Quoting.outside.after line = .outside) ∧
        IsLeast {i | IsZeroAt '(' ')' 1 (joinLines (openText :: passed.map trim)) i}
          (joinLines list.inside).length := by
  have hmissing : findClosing '(' ')' 1 openText = .missing 1 := by decide
  have houtside : Quoting.outside.after openText = .outside := by decide
  obtain ⟨-, -, hbehind, hlist, -⟩ := findClosing_isLeast isBrackets_round (Int.le_refl 1) openText
  obtain ⟨hleast, -⟩ := findClosing_isLeast isBrackets_round (Int.le_refl 1)
    (openText ++ " int b) const;".toList)
  refine ⟨isBrackets_round, Int.le_refl 1, (hleast 33).1 (by decide),
    (hbehind 1 hmissing houtside _).1, ?_⟩
  obtain ⟨list, hread⟩ : ∃ list, parenthesized openText listLines =
    .ok (list, ["int after;".toList]) := ⟨_, rfl⟩
  obtain ⟨passed, hrest, -, hlast⟩ := hlist listLines list _ hread
  obtain rfl : passed = listLines.take 2 := List.append_cancel_right (hrest.symm.trans rfl)
  have hlines : ∀ line ∈ (openText :: (listLines.take 2).map trim).dropLast,
      Quoting.outside.after line = .outside := by decide
  exact ⟨list, _, _, hread, hrest, rfl, hlines, hlast hlines⟩

end Block

end HeaderApi
