import HeaderApi.Proofs.BracketSearch
import HeaderApi.Proofs.FunctionHeads
import HeaderApi.Proofs.StatementReaders

/-!
# Open parameter lists

A parameter list is read up to the parenthesis that closes it.  Where the list is still open, and
outside literals, text without parentheses and quotes changes nothing of where it ends.
-/

namespace HeaderApi

open Text

/-! ## Text that the search for a parenthesis passes over -/

namespace Source

variable {text front rest : List Char} {depth depth' : Int}

/-- Text without parentheses and quotes. -/
def IsInert (text : List Char) : Prop := ∀ c ∈ text, c ≠ '(' ∧ c ≠ ')' ∧ isQuote c = false

instance (text : List Char) : Decidable (IsInert text) :=
  decidable_of_iff (text.all (fun c => c ≠ '(' ∧ c ≠ ')' ∧ isQuote c = false) = true) <| by
    simp [IsInert, List.all_eq_true]

theorem IsInert.append (hfront : IsInert front) (htext : IsInert text) : IsInert (front ++ text) :=
  List.forall_mem_append.2 ⟨hfront, htext⟩

theorem IsInert.of_subset (htext : IsInert text) (h : front ⊆ text) : IsInert front :=
  fun c hc => htext c (h hc)

/-- Blanks are inert. -/
theorem isInert_of_blank (h : allBlank text = true) : IsInert text := by
  intro c hc
  have hblank : isBlank c = true := List.all_eq_true.1 h c hc
  refine ⟨?_, ?_, ?_⟩
  · rintro rfl
    cases hblank
  · rintro rfl
    cases hblank
  · rw [isQuote, Bool.or_eq_false_iff]
    constructor
    · refine decide_eq_false ?_
      rintro rfl
      cases hblank
    · refine decide_eq_false ?_
      rintro rfl
      cases hblank

/-- Text behind which a list is still open, with the given depths before and behind it, and that
ends outside literals. -/
structure IsOpen (depth : Int) (text : List Char) (depth' : Int) : Prop where
  missing : findClosing '(' ')' depth text = .missing depth'
  outside : Quoting.after .outside text = .outside

instance : Decidable (IsOpen depth text depth') :=
  decidable_of_iff (findClosing '(' ')' depth text = .missing depth' ∧
    Quoting.after .outside text = .outside) ⟨fun h => ⟨h.1, h.2⟩, fun h => ⟨h.missing, h.outside⟩⟩

/-- Text that closes the parentheses and the literals that it opens, and no others. -/
def IsBalanced (text : List Char) : Prop := IsOpen 1 text 1

instance : Decidable (IsBalanced text) := inferInstanceAs (Decidable (IsOpen 1 text 1))

/-- Text that does not close a list does not close one that is open deeper either. -/
theorem findClosingFrom_deeper {quoting : Quoting}
    (h : findClosingFrom '(' ')' quoting depth text = .missing depth') (hpos : 1 ≤ depth)
    {more : Int} (hmore : 0 ≤ more) :
    1 ≤ depth' ∧
      findClosingFrom '(' ')' quoting (depth + more) text = .missing (depth' + more) := by
  have hexact := isExact_findClosingFrom isBrackets_round hpos quoting text
  have hdeeper := isExact_findClosingFrom isBrackets_round (show 1 ≤ depth + more by omega) quoting
    text
  rw [h] at hexact
  obtain ⟨rfl, hopen⟩ := hexact
  refine ⟨hopen text List.prefix_rfl, ?_⟩
  cases hfind : findClosingFrom '(' ')' quoting (depth + more) text with
  | found inside behind =>
    rw [hfind] at hdeeper
    obtain ⟨rfl, -, hzero, -⟩ := hdeeper
    have hpos' := hopen (inside ++ [')']) ⟨behind, by simp⟩
    rw [depthBehind_add] at hzero
    omega
  | missing depth'' =>
    rw [hfind] at hdeeper
    rw [hdeeper.1, depthBehind_add]

/-- The search for the closing parenthesis passes over a text that stays open. -/
theorem IsOpen.findClosing (h : IsOpen depth front depth') (rest : List Char) :
    findClosing '(' ')' depth (front ++ rest) =
      front.foldr Closing.cons (Source.findClosing '(' ')' depth' rest) :=
  findClosing_append isBrackets_round h.missing h.outside rest

/-- An inert text leaves every depth as it is. -/
theorem IsInert.isOpen (h : IsInert text) (depth : Int) : IsOpen depth text depth := by
  induction text with
  | nil => exact ⟨findClosing_nil '(' ')' depth, rfl⟩
  | cons c text ih =>
    obtain ⟨⟨hopening, hclosing, hquote⟩, htext⟩ := List.forall_mem_cons.1 h
    obtain ⟨hmissing, houtside⟩ := ih htext
    constructor
    · rw [Source.findClosing, findClosingFrom, if_neg (by rw [hquote]; exact Bool.false_ne_true),
        if_neg hopening, if_neg hclosing]
      exact congrArg (Closing.cons c) hmissing
    · rw [Quoting.after, Quoting.next, if_neg (by rw [hquote]; exact Bool.false_ne_true)]
      exact houtside

theorem IsOpen.append {depth'' : Int} (h : IsOpen depth front depth')
    (htext : IsOpen depth' text depth'') : IsOpen depth (front ++ text) depth'' := by
  constructor
  · rw [h.findClosing, htext.missing, foldr_cons_missing]
  · rw [Quoting.after_append, h.outside, htext.outside]

/-- Where a list is open a depth of at least one is kept. -/
theorem IsOpen.one_le (h : IsOpen depth text depth') (hpos : 1 ≤ depth) : 1 ≤ depth' :=
  (findClosingFrom_deeper h.missing hpos (Int.le_refl 0)).1

/-- Balanced text keeps the depth of every open list. -/
theorem IsBalanced.isOpen (h : IsBalanced text) (hpos : 1 ≤ depth) : IsOpen depth text depth := by
  have hdeeper := (findClosingFrom_deeper h.missing (Int.le_refl 1)
    (show 0 ≤ depth - 1 by omega)).2
  rw [show 1 + (depth - 1) = depth by omega] at hdeeper
  exact ⟨hdeeper, h.outside⟩

theorem IsInert.isBalanced (h : IsInert text) : IsBalanced text := h.isOpen 1

theorem IsBalanced.append (h : IsBalanced front) (htext : IsBalanced text) :
    IsBalanced (front ++ text) := IsOpen.append h htext

end Source

open Source

/-- A block comment on one line. -/
def Comment.block (text : Line) : Line := "/*".toList ++ (text ++ "*/".toList)

theorem Comment.isInert_block {text : Line} (h : IsInert text) : IsInert (block text) :=
  IsInert.append (by decide) (h.append (by decide))

theorem Comment.isBalanced_block {text : Line} (h : IsBalanced text) : IsBalanced (block text) :=
  IsBalanced.append (by decide) (h.append (by decide))

/-! ## Lists that run over lines -/

namespace Block

variable {text front gap back raw : Line} {mid rest left : List Line} {depth depth' : Int}
  {list : Enclosed}

/-- A list with more text in front of its first line. -/
def Enclosed.prepend (front : Line) (list : Enclosed) : Enclosed :=
  { list with inside := match list.inside with
    | [] => []
    | text :: texts => (front ++ text) :: texts }

/-- A list with more lines in front of its own. -/
def Enclosed.below (texts : List Line) (list : Enclosed) : Enclosed :=
  { list with inside := texts ++ list.inside }

/-- The depth behind some texts that do not close a list. -/
def openDepth? : Int → List Line → Option Int
  | depth, [] => some depth
  | depth, text :: texts =>
    match findClosing '(' ')' depth text with
    | .missing depth => openDepth? depth texts
    | .found _ _ => none

/-- Lines of a list that stays open end at a depth of one at least. -/
theorem one_le_of_openDepth? {texts : List Line} (h : openDepth? depth texts = some depth')
    (hpos : 1 ≤ depth) : 1 ≤ depth' := by
  induction texts generalizing depth with
  | nil =>
    cases h
    exact hpos
  | cons text texts ih =>
    rw [openDepth?] at h
    split at h
    · rename_i hmissing
      exact ih h (findClosingFrom_deeper hmissing hpos (Int.le_refl 0)).1
    · cases h

/-- Behind text where the list is open it is read on. -/
theorem enclosed_prepend (h : IsOpen depth front depth') (text : Line) (rest : List Line) :
    enclosed '(' ')' depth (front ++ text) rest =
      (enclosed '(' ')' depth' text rest).map fun r => (r.1.prepend front, r.2) := by
  cases rest with
  | nil =>
    rw [enclosed, enclosed, h.findClosing]
    cases findClosing '(' ')' depth' text with
    | found inside after =>
      rw [foldr_cons_found]
      rfl
    | missing depth =>
      rw [foldr_cons_missing]
      rfl
  | cons next rest =>
    rw [enclosed, enclosed, h.findClosing]
    cases findClosing '(' ')' depth' text with
    | found inside after =>
      rw [foldr_cons_found]
      rfl
    | missing depth =>
      rw [foldr_cons_missing]
      simp only [Option.map_map]
      rfl

/-- Behind lines that do not close the list it is read on. -/
theorem enclosed_below (h : openDepth? depth (text :: mid.map trim) = some depth') (raw : Line)
    (rest : List Line) :
    enclosed '(' ')' depth text (mid ++ raw :: rest) =
      (enclosed '(' ')' depth' (trim raw) rest).map fun r =>
        (r.1.below (text :: mid.map trim), r.2) := by
  induction mid generalizing depth text with
  | nil =>
    rw [openDepth?] at h
    split at h
    · rename_i depth'' hmissing
      cases h
      rw [List.nil_append, enclosed, hmissing]
      rfl
    · cases h
  | cons line mid ih =>
    rw [openDepth?] at h
    split at h
    · rename_i depth'' hmissing
      rw [List.cons_append, enclosed, hmissing]
      dsimp only
      rw [ih h, Option.map_map]
      rfl
    · cases h

/-- Text that keeps the depth may be put in where the list is open. -/
theorem enclosed_insert (hopen : IsOpen depth front depth') (hgap : IsOpen depth' gap depth')
    (h : enclosed '(' ')' depth (front ++ back) rest = some (list, left)) :
    ∃ inside, enclosed '(' ')' depth (front ++ (gap ++ back)) rest =
      some ({ list with inside }, left) := by
  rw [enclosed_prepend hopen] at h
  obtain ⟨⟨list', left'⟩, hread, heq⟩ := Option.map_eq_some_iff.1 h
  cases heq
  refine ⟨((list'.prepend gap).prepend front).inside, ?_⟩
  rw [enclosed_prepend hopen, enclosed_prepend hgap, hread]
  rfl

/-- So it may be put in on a later line. -/
theorem enclosed_insert_below {depth'' : Int} {raw' : Line}
    (hmid : openDepth? depth (text :: mid.map trim) = some depth')
    (hopen : IsOpen depth' front depth'') (hgap : IsOpen depth'' gap depth'')
    (hraw : trim raw = front ++ back) (hraw' : trim raw' = front ++ (gap ++ back))
    (h : enclosed '(' ')' depth text (mid ++ raw :: rest) = some (list, left)) :
    ∃ inside, enclosed '(' ')' depth text (mid ++ raw' :: rest) =
      some ({ list with inside }, left) := by
  rw [enclosed_below hmid, hraw] at h
  obtain ⟨⟨list', left'⟩, hread, heq⟩ := Option.map_eq_some_iff.1 h
  cases heq
  obtain ⟨inside, hread'⟩ := enclosed_insert hopen hgap hread
  refine ⟨text :: mid.map trim ++ inside, ?_⟩
  rw [enclosed_below hmid, hraw', hread']
  rfl

end Block

end HeaderApi
