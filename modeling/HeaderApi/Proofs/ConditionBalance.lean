import Mathlib.Algebra.Ring.Int.Defs
import HeaderApi.Proofs.Blocks
import HeaderApi.Proofs.EmissionOrder
import HeaderApi.Proofs.ReadParts

/-!
# Balanced conditions

The conditions of a text are balanced when no line closes one that is not open and all are closed
at the end.  Trimming, the removal of quoted includes and the insertion of system includes change
no condition, so an amalgamation of balanced headers is balanced.
-/

namespace HeaderApi

open Text

namespace Condition

/-! ## Depth -/

/-- What a line does to the number of open conditions. -/
def change? (line : Line) : Option Int :=
  if startsWith "#if".toList line then some 1
  else if startsWith "#endif".toList line then some (-1)
  else none

/-- What lines do to the number of open conditions, one after the other. -/
def changes (lines : List Line) : List Int := lines.filterMap change?

/-- The number of conditions that lines open, less the number of those that they close. -/
def depth (lines : List Line) : Int := (changes lines).sum

/-- Lines that close no more conditions than are open, and in the end all of them. -/
structure Balanced (lines : List Line) : Prop where
  nonneg : ∀ front, front <+: lines → 0 ≤ depth front
  depth_eq_zero : depth lines = 0

instance (lines : List Line) : Decidable (Balanced lines) :=
  decidable_of_iff ((∀ front ∈ lines.inits, 0 ≤ depth front) ∧ depth lines = 0)
    ⟨fun h => ⟨fun front hfront => h.1 front ((List.mem_inits front lines).2 hfront), h.2⟩,
      fun h => ⟨fun front hfront => h.nonneg front ((List.mem_inits front lines).1 hfront),
        h.depth_eq_zero⟩⟩

variable {line : Line} {lines : List Line}

theorem change?_of_if (h : startsWith "#if".toList line = true) : change? line = some 1 := if_pos h

/-- A line that begins with the closing directive closes one. -/
theorem change?_of_endif (h : startsWith "#endif".toList line = true) :
    change? line = some (-1) := by
  obtain ⟨rest, rfl⟩ := startsWith_iff.1 h
  rfl

theorem change?_eq_none (hopen : startsWith "#if".toList line = false)
    (hclose : startsWith "#endif".toList line = false) : change? line = none := by
  rw [change?, if_neg (Bool.eq_false_iff.1 hopen), if_neg (Bool.eq_false_iff.1 hclose)]

/-- A line that opens or closes a condition begins with a hash sign. -/
theorem change?_cons_of_ne {c : Char} (h : c ≠ '#') (line : Line) : change? (c :: line) = none :=
  change?_eq_none (by simp [startsWith, after?, Ne.symm h])
    (by simp [startsWith, after?, Ne.symm h])

theorem changes_append (front back : List Line) :
    changes (front ++ back) = changes front ++ changes back := List.filterMap_append

theorem changes_singleton (h : change? line = none) : changes [line] = [] := by
  rw [changes, List.filterMap_cons_none h, List.filterMap_nil]

theorem depth_append (front back : List Line) :
    depth (front ++ back) = depth front + depth back := by
  rw [depth, changes_append, List.sum_append, depth, depth]

theorem depth_cons {change : Int} (h : change? line = some change) (lines : List Line) :
    depth (line :: lines) = change + depth lines := by
  rw [depth, changes, List.filterMap_cons_some h, List.sum_cons, depth, changes]

theorem depth_cons_of_none (h : change? line = none) (lines : List Line) :
    depth (line :: lines) = depth lines := by
  rw [depth, changes, List.filterMap_cons_none h, depth, changes]

/-- Without a line that opens a condition the depth does not grow. -/
theorem depth_nonpos (h : ∀ line ∈ lines, startsWith "#if".toList line = false) :
    depth lines ≤ 0 := by
  induction lines with
  | nil => exact le_refl 0
  | cons line lines ih =>
    obtain ⟨hline, hlines⟩ := List.forall_mem_cons.1 h
    have hlater := ih hlines
    cases hclose : startsWith "#endif".toList line with
    | true =>
      rw [depth_cons (change?_of_endif hclose)]
      omega
    | false => rwa [depth_cons_of_none (change?_eq_none hline hclose)]

/-! ## Balance -/

/-- Only what the lines do to the number of open conditions counts. -/
theorem Balanced.congr {other : List Line} (h : Balanced lines)
    (hchanges : changes other = changes lines) : Balanced other := by
  refine ⟨fun front hfront => ?_, ?_⟩
  · have hprefix : changes front <+: changes lines := hchanges ▸ hfront.filterMap change?
    obtain ⟨same, hsame, heq⟩ := List.prefix_filterMap_iff.1 hprefix
    rw [depth, heq]
    exact h.nonneg same hsame
  · rw [depth, hchanges]
    exact h.depth_eq_zero

theorem Balanced.nil : Balanced [] :=
  ⟨fun front hfront => by rw [List.prefix_nil.1 hfront]; exact le_refl 0, rfl⟩

/-- A line that is not about a condition is balanced. -/
theorem Balanced.singleton (h : change? line = none) : Balanced [line] :=
  Balanced.nil.congr (changes_singleton h)

/-- Balanced lines behind balanced lines are balanced. -/
theorem Balanced.append {front back : List Line} (hfront : Balanced front) (hback : Balanced back) :
    Balanced (front ++ back) := by
  refine ⟨fun start hstart => ?_, ?_⟩
  · rcases List.prefix_or_prefix_of_prefix hstart (List.prefix_append front back) with h | h
    · exact hfront.nonneg start h
    · obtain ⟨more, rfl⟩ := h
      have hmore := hback.nonneg more ((List.prefix_append_right_inj front).1 hstart)
      rw [depth_append, hfront.depth_eq_zero]
      omega
  · rw [depth_append, hfront.depth_eq_zero, hback.depth_eq_zero]
    rfl

/-- Lines that are put together of balanced ones are balanced. -/
theorem Balanced.flatMap {α : Type} {as : List α} {f : α → List Line}
    (h : ∀ a ∈ as, Balanced (f a)) : Balanced (as.flatMap f) := by
  induction as with
  | nil => exact Balanced.nil
  | cons a as ih =>
    obtain ⟨ha, has⟩ := List.forall_mem_cons.1 h
    exact ha.append (ih has)

/-- A depth that starts with an open condition and is never zero stays positive, since it moves in
steps of one. -/
theorem one_le_depth {first : Line} (hfirst : startsWith "#if".toList first = true)
    (h : ∀ front, front <+: lines → depth (first :: front) ≠ 0) :
    ∀ front, front <+: lines → 1 ≤ depth (first :: front) := by
  intro front
  induction front using List.reverseRecOn with
  | nil =>
    intro
    rw [depth_cons (change?_of_if hfirst)]
    exact le_refl 1
  | append_singleton front line ih =>
    intro hfront
    have hbefore := ih ((List.prefix_append front [line]).trans hfront)
    have hne := h _ hfront
    rw [← List.cons_append, depth_append] at hne ⊢
    have hstep : -1 ≤ depth [line] := by
      cases hopen : startsWith "#if".toList line with
      | true =>
        rw [depth_cons (change?_of_if hopen)]
        decide
      | false =>
        cases hclose : startsWith "#endif".toList line with
        | true =>
          rw [depth_cons (change?_of_endif hclose)]
          decide
        | false =>
          rw [depth_cons_of_none (change?_eq_none hopen hclose)]
          decide
    omega

/-! ## Lines of a trimmed block -/

/-- A line without line feeds, on which no hash sign stands behind white space alone. -/
def IsFlush (line : Line) : Prop :=
  '\n' ∉ line ∧ (startsWith ['#'] (trimStart line) = true → startsWith ['#'] line = true)

instance (line : Line) : Decidable (IsFlush line) := inferInstanceAs (Decidable (_ ∧ _))

theorem startsWith_hash_iff : startsWith ['#'] line = true ↔ ∃ rest, line = '#' :: rest :=
  startsWith_iff

/-- Behind white space at the front of such a line no condition is opened or closed. -/
theorem IsFlush.change?_of_cons {c : Char} (h : IsFlush (c :: line)) (hblank : isBlank c = true) :
    IsFlush line ∧ change? line = none := by
  have hc : c ≠ '#' := by
    rintro rfl
    exact absurd hblank (by decide)
  have htrim : trimStart (c :: line) = trimStart line := List.dropWhile_cons_of_pos hblank
  have hvisible : startsWith ['#'] (trimStart line) = false := by
    refine Bool.eq_false_iff.2 fun hhash => ?_
    rw [← htrim] at hhash
    obtain ⟨rest, hrest⟩ := startsWith_hash_iff.1 (h.2 hhash)
    exact hc (List.cons.inj hrest).1
  refine ⟨⟨fun hmem => h.1 (List.mem_cons_of_mem c hmem), fun hhash => ?_⟩, ?_⟩
  · rw [hvisible] at hhash
    cases hhash
  · cases line with
    | nil => rfl
    | cons d line =>
      refine change?_cons_of_ne ?_ line
      rintro rfl
      rw [trimStart_cons (by decide)] at hvisible
      exact absurd hvisible (by simp [startsWith, after?])

/-- White space at its end does not tell whether a line opens or closes a condition. -/
theorem change?_concat {c : Char} (h : isBlank c = true) (line : Line) :
    change? (line ++ [c]) = change? line := by
  have hmem : ∀ opening : List Char, (opening.all fun d => !isBlank d) = true → c ∉ opening := by
    intro opening hopening hc
    have hvisible := List.all_eq_true.1 hopening c hc
    rw [h] at hvisible
    cases hvisible
  rw [change?, change?, startsWith_append_cons (hmem _ (by decide)),
    startsWith_append_cons (hmem _ (by decide))]

variable {cs tail : List Char}

/-- Trimming a block at its front changes none of its conditions. -/
theorem changes_pieces_trimStart (h : ∀ line ∈ pieces '\n' cs, IsFlush line) :
    changes (pieces '\n' (trimStart cs)) = changes (pieces '\n' cs) := by
  induction cs with
  | nil => rfl
  | cons c cs ih =>
    by_cases hblank : isBlank c = true
    · have htrim : trimStart (c :: cs) = trimStart cs := List.dropWhile_cons_of_pos hblank
      rw [htrim]
      by_cases hc : c = '\n'
      · subst hc
        rw [pieces_cons_self] at h ⊢
        exact ih (List.forall_mem_cons.1 h).2
      · obtain ⟨first, later, hcs⟩ := exists_pieces_eq_cons '\n' cs
        rw [hcs] at ih
        rw [pieces_cons_of_ne hc hcs] at h ⊢
        obtain ⟨hfirst, hlater⟩ := List.forall_mem_cons.1 h
        -- the line that loses the blank is about no condition, with it or without it
        obtain ⟨hflush, hnone⟩ := hfirst.change?_of_cons hblank
        have hne : c ≠ '#' := by
          rintro rfl
          exact absurd hblank (by decide)
        rw [ih (List.forall_mem_cons.2 ⟨hflush, hlater⟩), changes, changes,
          List.filterMap_cons_none hnone, List.filterMap_cons_none (change?_cons_of_ne hne first)]
    · rw [trimStart_cons (Bool.eq_false_iff.2 hblank)]

/-- Blanks behind a block change none of its conditions. -/
theorem changes_pieces_append (h : ∀ c ∈ tail, isBlank c = true) :
    changes (pieces '\n' (cs ++ tail)) = changes (pieces '\n' cs) := by
  induction tail generalizing cs with
  | nil => rw [List.append_nil]
  | cons c tail ih =>
    obtain ⟨hc, htail⟩ := List.forall_mem_cons.1 h
    rw [← List.singleton_append, ← List.append_assoc, ih htail]
    by_cases hfeed : c = '\n'
    · subst hfeed
      rw [pieces_append, changes_append]
      exact List.append_nil _
    · have hlast := (List.dropLast_concat_getLast (pieces_ne_nil '\n' cs)).symm
      have hsame : ∀ line, changes [line ++ [c]] = changes [line] := by
        intro line
        rw [changes, changes, List.filterMap_cons, List.filterMap_cons, change?_concat hc]
      rw [pieces_concat_of_ne hfeed hlast, changes_append, hsame, ← changes_append, ← hlast]

/-- Trimming a block changes none of its conditions. -/
theorem changes_pieces_trim (h : ∀ line ∈ pieces '\n' cs, IsFlush line) :
    changes (pieces '\n' (trim cs)) = changes (pieces '\n' cs) := by
  obtain ⟨tail, htail, hblank⟩ := dropEndWhile_append isBlank (trimStart cs)
  rw [← changes_pieces_trimStart h, htail, changes_pieces_append hblank]
  rfl

/-- The lines of a block do to the number of open conditions what the lines do that it is made
of. -/
theorem changes_block (h : ∀ line ∈ lines, IsFlush line) :
    changes (pieces '\n' (Part.block lines)) = changes lines := by
  by_cases hnil : lines = []
  · rw [hnil]
    rfl
  · have hpieces : pieces '\n' (joinLines lines) = lines := by
      rw [pieces_joinLines hnil, flatMap_pieces fun line hline => (h line hline).1]
    rw [Part.block, changes_pieces_trim (by rwa [hpieces]), hpieces]

/-! ## Guards -/

/-- The lines of a header from its guard on. -/
def fromGuard : List Line → List Line
  | [] => []
  | [_] => []
  | first :: second :: rest =>
    if startsWith "#ifndef".toList first && startsWith "#define".toList second then
      first :: second :: rest
    else fromGuard (second :: rest)

/-- A header has no guard, or its guard is made of two directives. -/
theorem fromGuard_cases (lines : List Line) :
    fromGuard lines = [] ∧ Part.afterGuard lines = [] ∨
      ∃ first second, fromGuard lines = first :: second :: Part.afterGuard lines ∧
        startsWith "#ifndef".toList first = true ∧ startsWith "#define".toList second = true := by
  fun_induction fromGuard lines with
  | case1 => exact Or.inl ⟨rfl, rfl⟩
  | case2 => exact Or.inl ⟨rfl, rfl⟩
  | case3 first second rest hguard =>
    rw [Part.afterGuard, if_pos hguard]
    exact Or.inr ⟨first, second, rfl, Bool.and_eq_true_iff.1 hguard⟩
  | case4 first second rest hguard ih =>
    rw [Part.afterGuard, if_neg hguard]
    exact ih

/-- The lines behind the guard are lines of the header. -/
theorem afterGuard_subset (lines : List Line) :
    ∀ line ∈ Part.afterGuard lines, line ∈ lines := by
  fun_induction Part.afterGuard lines with
  | case1 => exact List.forall_mem_nil _
  | case2 => exact List.forall_mem_nil _
  | case3 first second rest =>
    exact fun line hline => List.mem_cons_of_mem _ (List.mem_cons_of_mem _ hline)
  | case4 first second rest hguard ih =>
    exact fun line hline => List.mem_cons_of_mem _ (ih line hline)

/-- Lines whose depth is not zero before the last line that closes a condition, and zero there. -/
def ClosesAtLastEndif (lines : List Line) : Prop :=
  ∃ body last rest, lines = body ++ last :: rest ∧ startsWith "#endif".toList last = true ∧
    (∀ line ∈ rest, startsWith "#endif".toList line = false) ∧ depth (body ++ [last]) = 0 ∧
    ∀ front, front <+: body → front ≠ [] → depth front ≠ 0

/-- There is one last line of a kind. -/
theorem eq_of_last {p : Line → Bool} {front front' back back' : List Line} {last last' : Line}
    (h : front ++ last :: back = front' ++ last' :: back') (hlast : p last = true)
    (hlast' : p last' = true) (hback : ∀ line ∈ back, p line = false)
    (hback' : ∀ line ∈ back', p line = false) : front = front' := by
  rcases List.append_eq_append_iff.1 h with ⟨more, rfl, hmore⟩ | ⟨more, rfl, hmore⟩
  · cases more with
    | nil => rw [List.append_nil]
    | cons first more =>
      have hmem : last' ∈ back := by
        rw [(List.cons.inj hmore).2]
        exact List.mem_append_right _ List.mem_cons_self
      rw [hback last' hmem] at hlast'
      cases hlast'
  · cases more with
    | nil => rw [List.append_nil]
    | cons first more =>
      have hmem : last ∈ back' := by
        rw [(List.cons.inj hmore).2]
        exact List.mem_append_right _ List.mem_cons_self
      rw [hback' last hmem] at hlast
      cases hlast

/-- Where the depth comes back to zero at the last line that closes a condition, the lines from the
first condition behind the guard up to that line are balanced. -/
theorem balanced_of_closesAtLastEndif {first second opening : Line} {before rest body : List Line}
    (h : ClosesAtLastEndif (first :: second :: (before ++ opening :: rest)))
    (hfirst : startsWith "#ifndef".toList first = true)
    (hsecond : startsWith "#define".toList second = true)
    (hbefore : ∀ line ∈ before, startsWith "#if".toList line = false)
    (hbody : Part.beforeLastEndif rest = some body) : Balanced (opening :: body) := by
  obtain ⟨whole, last, after, hwhole, hlast, hafter, hzero, hpositive⟩ := h
  obtain ⟨last', after', rfl, hlast', hafter'⟩ := Part.exists_of_beforeLastEndif hbody
  have hlines : (first :: second :: (before ++ opening :: body)) ++ last' :: after' =
      whole ++ last :: after := by
    rw [← hwhole]
    simp only [List.cons_append, List.append_assoc]
  obtain rfl : first :: second :: (before ++ opening :: body) = whole :=
    eq_of_last (p := fun line => startsWith "#endif".toList line) hlines hlast' hlast hafter' hafter
  have hopen : startsWith "#if".toList first = true := by
    obtain ⟨tail, rfl⟩ := startsWith_iff.1 hfirst
    rfl
  have hnone : change? second = none := by
    obtain ⟨tail, rfl⟩ := startsWith_iff.1 hsecond
    rfl
  have hdepth : ∀ lines, depth (first :: second :: lines) = 1 + depth lines := by
    intro lines
    rw [depth_cons (change?_of_if hopen), depth_cons_of_none hnone]
  -- in front of the first condition nothing is opened, so nothing can be closed either
  have hpos : ∀ front, front <+: before ++ opening :: body → 0 ≤ depth front := by
    intro front hfront
    have hone := one_le_depth hopen
      (fun start hstart => hpositive _ (List.cons_prefix_cons.2 ⟨rfl, hstart⟩)
        (List.cons_ne_nil _ _)) (second :: front) (List.cons_prefix_cons.2 ⟨rfl, hfront⟩)
    rw [hdepth] at hone
    omega
  have hstart : depth before = 0 :=
    le_antisymm (depth_nonpos hbefore) (hpos before (List.prefix_append _ _))
  refine ⟨fun front hfront => ?_, ?_⟩
  · have hfront := hpos (before ++ front) ((List.prefix_append_right_inj before).2 hfront)
    rw [depth_append, hstart] at hfront
    omega
  · rw [depth_append, hdepth, depth_append, hstart, depth_cons (change?_of_endif hlast)] at hzero
    have hrest : depth [] = 0 := rfl
    omega

end Condition

end HeaderApi
