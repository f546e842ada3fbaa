import HeaderApi.Amalgam.Basic
import Mathlib.Data.List.Basic
import Mathlib.Data.String.Basic

/-!
# The part of a printed header

A header is printed inside a guard and a namespace.  Reading the lines as the part of an
amalgamation gives back what was printed: the quoted includes as dependencies, the system includes
in their order, and as content the lines inside the namespace.
-/

namespace HeaderApi

open Text

/-! ## Sorted texts -/

theorem sortTexts_perm (texts : List String) : (sortTexts texts).Perm texts :=
  List.mergeSort_perm texts _

theorem mem_sortTexts {texts : List String} {s : String} : s ∈ sortTexts texts ↔ s ∈ texts :=
  (sortTexts_perm texts).mem_iff

/-- Sorted texts are in order. -/
theorem pairwise_sortTexts (texts : List String) : (sortTexts texts).Pairwise (· ≤ ·) := by
  have hsorted : (sortTexts texts).Pairwise fun a b => decide (a ≤ b) = true := by
    refine List.pairwise_mergeSort (fun a b c hab hbc => ?_) (fun a b => ?_) texts
    · exact decide_eq_true ((of_decide_eq_true hab).trans (of_decide_eq_true hbc))
    · rcases le_total a b with h | h
      · simp [h]
      · simp [h]
  exact hsorted.imp of_decide_eq_true

/-- Inserting keeps a list sorted and without duplicates. -/
theorem pairwise_insertText {s : String} {texts : List String} (h : texts.Pairwise (· < ·)) :
    (insertText s texts).Pairwise (· < ·) := by
  induction texts with
  | nil => exact List.pairwise_singleton _ s
  | cons t texts ih =>
    obtain ⟨ht, htexts⟩ := List.pairwise_cons.1 h
    rw [insertText]
    split
    · exact h
    · rename_i hne
      split
      · rename_i hlt
        refine List.pairwise_cons.2 ⟨fun u hu => ?_, h⟩
        rcases List.mem_cons.1 hu with rfl | hu
        · exact hlt
        · exact hlt.trans (ht u hu)
      · rename_i hnot
        refine List.pairwise_cons.2 ⟨fun u hu => ?_, ih htexts⟩
        rcases mem_insertText.1 hu with rfl | hu
        · exact lt_of_le_of_ne (not_lt.1 hnot) (Ne.symm hne)
        · exact ht u hu

theorem insertTexts_cons (s : String) (texts sorted : List String) :
    insertTexts (s :: texts) sorted = insertTexts texts (insertText s sorted) := rfl

/-- Texts that are put into a sorted list keep it sorted, each of them once. -/
theorem pairwise_insertTexts {texts sorted : List String} (h : sorted.Pairwise (· < ·)) :
    (insertTexts texts sorted).Pairwise (· < ·) := by
  induction texts generalizing sorted with
  | nil => exact h
  | cons s texts ih => exact ih (pairwise_insertText h)

/-- The texts of the list are those that were put in and those before. -/
theorem mem_insertTexts {s : String} {texts sorted : List String} :
    s ∈ insertTexts texts sorted ↔ s ∈ texts ∨ s ∈ sorted := by
  induction texts generalizing sorted with
  | nil => simp [insertTexts]
  | cons t texts ih =>
    rw [insertTexts_cons, ih, mem_insertText, List.mem_cons, ← or_assoc, or_comm (a := s ∈ texts)]

namespace Part

/-! ## Includes -/

/-- A name that an include can carry. -/
def IsIncludeName (name : String) : Prop :=
  name ≠ "" ∧ ∀ c ∈ name.toList, isIncludeChar c = true

instance (name : String) : Decidable (IsIncludeName name) :=
  decidable_of_iff (name ≠ "" ∧ name.toList.all isIncludeChar = true)
    (and_congr_right fun _ => List.all_eq_true)

/-- The mark in front of the name of an include. -/
def openingMark (isQuoted : Bool) : Char := if isQuoted then '"' else '<'

/-- The mark behind the name of an include. -/
def closingMark (isQuoted : Bool) : Char := if isQuoted then '"' else '>'

/-- An include is a name between its opening mark and one of the closing ones. -/
theorem include?_marked (isQuoted : Bool) (tail : Line) :
    include? ("#include ".toList ++ openingMark isQuoted :: tail) =
      if tail.takeWhile isIncludeChar ≠ [] && ((tail.dropWhile isIncludeChar).head? = some '>' ||
          (tail.dropWhile isIncludeChar).head? = some '"') then
        some (isQuoted, String.ofList (tail.takeWhile isIncludeChar)) else none := by
  cases isQuoted <;> rfl

/-- An include of a name between its marks is read back. -/
theorem include?_of_name {name : String} (h : IsIncludeName name) (isQuoted : Bool) :
    include? ("#include ".toList ++ openingMark isQuoted ::
      (name.toList ++ [closingMark isQuoted])) = some (isQuoted, name) := by
  have hclosing : isIncludeChar (closingMark isQuoted) = false := by
    cases isQuoted <;> decide
  have hname : name.toList ≠ [] := fun hnil => h.1 (String.toList_eq_nil_iff.1 hnil)
  rw [include?_marked, List.takeWhile_append_of_pos h.2, List.dropWhile_append_of_pos h.2,
    List.takeWhile_cons_of_neg (by simp [hclosing]), List.append_nil,
    List.dropWhile_cons_of_neg (by simp [hclosing]), List.head?_cons, String.ofList_toList, if_pos]
  cases isQuoted <;> simp [hname, closingMark]

theorem include?_systemInclude {name : String} (h : IsIncludeName name) :
    include? (systemInclude name) = some (false, name) :=
  include?_of_name h false

theorem include?_quotedInclude {name : String} (h : IsIncludeName name) :
    include? (quotedInclude name) = some (true, name) :=
  include?_of_name h true

variable {options : AmalgamOptions} {part : Part}

/-- System includes are kept in their order, apart from those that the master include covers. -/
theorem readIncludes_system {names : List String} (h : ∀ name ∈ names, IsIncludeName name)
    (rest : List Line) :
    readIncludes options part (names.map systemInclude ++ rest) =
      readIncludes options { part with
        includes := part.includes ++
          names.filter fun name => !startsWith options.masterStart.toList name.toList } rest := by
  induction names generalizing part with
  | nil => rw [List.filter_nil, List.append_nil, List.map_nil, List.nil_append]
  | cons name names ih =>
    obtain ⟨hname, hnames⟩ := List.forall_mem_cons.1 h
    rw [List.map_cons, List.cons_append, readIncludes, include?_systemInclude hname]
    dsimp only
    split
    · rename_i hcovered
      rw [ih hnames, List.filter_cons_of_neg (by simp [hcovered])]
    · rename_i hkept
      rw [ih hnames, List.filter_cons_of_pos (by simp [hkept]), List.append_assoc,
        List.singleton_append]

/-- Quoted includes become dependencies. -/
theorem readIncludes_quoted {names : List String} (h : ∀ name ∈ names, IsIncludeName name)
    (rest : List Line) :
    readIncludes options part (names.map quotedInclude ++ rest) =
      readIncludes options { part with deps := insertTexts names part.deps } rest := by
  induction names generalizing part with
  | nil => rfl
  | cons name names ih =>
    obtain ⟨hname, hnames⟩ := List.forall_mem_cons.1 h
    rw [List.map_cons, List.cons_append, readIncludes, include?_quotedInclude hname]
    exact ih hnames

/-- An empty line between the guard and the namespace says nothing. -/
theorem readIncludes_empty (rest : List Line) :
    readIncludes options part ([] :: rest) = readIncludes options part rest := rfl

/-! ## Content -/

/-- The content runs up to the first line that begins like the closing one. -/
theorem readContent_append {closing : Line} {content : List Line}
    (h : ∀ line ∈ content, startsWith closing line = false) (rest : List Line) :
    readContent closing (content ++ closing :: rest) = some content := by
  induction content with
  | nil =>
    rw [List.nil_append, readContent, if_pos (startsWith_iff.2 ⟨[], (List.append_nil _).symm⟩)]
  | cons line content ih =>
    obtain ⟨hline, hcontent⟩ := List.forall_mem_cons.1 h
    rw [List.cons_append, readContent, if_neg (by simp [hline]), ih hcontent]
    rfl

/-- The content of a part is what stands between the namespace marks. -/
theorem readIncludes_namespace {content : List Line}
    (h : ∀ line ∈ content, startsWith (namespaceClose options.namespaceName) line = false)
    (rest : List Line) :
    readIncludes options part (namespaceOpen options.namespaceName ::
      (content ++ namespaceClose options.namespaceName :: rest)) =
      .ok { part with content := some content } := by
  have hopen : startsWith (namespaceOpen options.namespaceName)
      (namespaceOpen options.namespaceName) = true :=
    startsWith_iff.2 ⟨[], (List.append_nil _).symm⟩
  have hinclude : include? (namespaceOpen options.namespaceName) = none := rfl
  rw [readIncludes, hinclude]
  dsimp only
  rw [if_pos hopen, readContent_append h]

/-! ## Printed headers -/

/-- The lines inside the namespace are empty, or lines of the doc or of the entries. -/
theorem mem_contentLines {header : Header} {line : Line} (h : line ∈ header.contentLines) :
    line = [] ∨
      line ∈ docLines [] header.doc ++ header.entries.toList.flatMap (Entry.lines []) := by
  unfold Header.contentLines at h
  rw [List.cons_append, List.mem_cons, List.mem_append, List.mem_flatMap] at h
  rw [List.mem_append, List.mem_flatMap]
  rcases h with rfl | hdoc | ⟨entry, hentry, hline⟩
  · exact Or.inl rfl
  · unfold Header.block at hdoc
    split at hdoc
    · cases hdoc
    · rcases List.mem_append.1 hdoc with hdoc | hempty
      · exact Or.inr (Or.inl hdoc)
      · exact Or.inl (List.mem_singleton.1 hempty)
  · rcases List.mem_append.1 hline with hline | hempty
    · exact Or.inr (Or.inr ⟨entry, hentry, hline⟩)
    · exact Or.inl (List.mem_singleton.1 hempty)

/-- Behind the guard the lines are read as they are. -/
theorem afterGuard_toLines (options : HeaderOptions) (header : Header) :
    afterGuard (header.toLines options) =
      [] :: (Header.block header.includeLines ++ namespaceOpen options.namespaceName ::
        (header.contentLines ++ namespaceClose options.namespaceName ::
          [[], "#endif /* ".toList ++ Header.guard options header.name ++ " */".toList])) := by
  have hifndef : ∀ guard : Line, startsWith "#ifndef".toList ("#ifndef ".toList ++ guard) = true :=
    fun _ => rfl
  have hdefine : ∀ guard : Line, startsWith "#define".toList ("#define ".toList ++ guard) = true :=
    fun _ => rfl
  simp only [Header.toLines, List.cons_append, List.nil_append, List.append_assoc, afterGuard,
    hifndef, hdefine, Bool.and_self, if_true]

/-- What the printed includes of a header say. -/
theorem readIncludes_includeLines {header : Header}
    (hincludes : ∀ name ∈ header.includes.getD [], IsIncludeName name)
    (hlocal : ∀ name ∈ header.localIncludes.getD [], IsIncludeName name) (rest : List Line) :
    readIncludes options part (header.includeLines ++ rest) =
      readIncludes options { part with
        includes := part.includes ++ (sortTexts (header.includes.getD [])).filter
          fun name => !startsWith options.masterStart.toList name.toList
        deps := insertTexts (sortTexts (header.localIncludes.getD [])) part.deps } rest := by
  have hsystem : ∀ name ∈ sortTexts (header.includes.getD []), IsIncludeName name :=
    fun name hname => hincludes name (mem_sortTexts.1 hname)
  have hquoted : ∀ name ∈ sortTexts (header.localIncludes.getD []), IsIncludeName name :=
    fun name hname => hlocal name (mem_sortTexts.1 hname)
  unfold Header.includeLines
  rw [List.append_assoc, readIncludes_system hsystem, readIncludes_quoted hquoted]

/-- The empty line behind the includes, which is there when there are any, says nothing. -/
theorem readIncludes_block {ls : List Line} {part part' : Part} (rest : List Line)
    (h : ∀ rest, readIncludes options part (ls ++ rest) = readIncludes options part' rest) :
    readIncludes options part (Header.block ls ++ rest) = readIncludes options part' rest := by
  unfold Header.block
  split
  · rename_i hnil
    subst hnil
    exact h rest
  · rw [List.append_assoc, h]
    exact readIncludes_empty rest

/-- The part that a printed header is. -/
def ofHeader (options : AmalgamOptions) (header : Header) : Part where
  name := header.name
  deps := insertTexts (sortTexts (header.localIncludes.getD [])) []
  includes := (sortTexts (header.includes.getD [])).filter
    fun name => !startsWith options.masterStart.toList name.toList
  content := some header.contentLines

/-- **Reading a printed header.**  When its includes have names and no line of its doc or entries
begins like the end of the namespace, the lines of a header are read as a part without condition.
Its dependencies are the quoted includes, sorted and without duplicates; its system includes are
those of the header in order, without those that the master include covers; and its content are
the lines between the lines that open and close the namespace. -/
theorem read_toLines {header : Header} {options : HeaderOptions} {amalgam : AmalgamOptions}
    (hnamespace : amalgam.namespaceName = options.namespaceName)
    (hincludes : ∀ name ∈ header.includes.getD [], IsIncludeName name)
    (hlocal : ∀ name ∈ header.localIncludes.getD [], IsIncludeName name)
    (hclose : ∀ line ∈ docLines [] header.doc ++ header.entries.toList.flatMap (Entry.lines []),
      startsWith (namespaceClose options.namespaceName) line = false) :
    ∃ part, read amalgam header.name (header.toLines options) = ⟨[], .ok part⟩ ∧
      part.name = header.name ∧ part.conditional = false ∧
      (part.deps.Pairwise (· < ·) ∧
        ∀ name, name ∈ part.deps ↔ name ∈ header.localIncludes.getD []) ∧
      (part.includes.Pairwise (· ≤ ·) ∧ part.includes.Perm ((header.includes.getD []).filter
        fun name => !startsWith amalgam.masterStart.toList name.toList)) ∧
      part.content = some header.contentLines := by
  have hcontent : ∀ line ∈ header.contentLines,
      startsWith (namespaceClose amalgam.namespaceName) line = false := by
    intro line hline
    rw [hnamespace]
    rcases mem_contentLines hline with rfl | hmem
    · rfl
    · exact hclose line hmem
  -- Reading goes block by block: behind the guard the includes, then the namespace to its end.
  have hlines : readIncludes amalgam { name := header.name }
      (afterGuard (header.toLines options)) = .ok (ofHeader amalgam header) := by
    rw [afterGuard_toLines, readIncludes_empty,
      readIncludes_block _ (readIncludes_includeLines hincludes hlocal), ← hnamespace,
      readIncludes_namespace hcontent]
    rfl
  refine ⟨ofHeader amalgam header, ?_, rfl, rfl, ⟨?_, fun name => ?_⟩, ⟨?_, ?_⟩, rfl⟩
  · unfold read
    rw [hlines]
    rfl
  · exact pairwise_insertTexts List.Pairwise.nil
  · rw [ofHeader, mem_insertTexts, mem_sortTexts, or_iff_left List.not_mem_nil]
  · exact (pairwise_sortTexts _).filter _
  · exact (sortTexts_perm _).filter _

/-- A header with a record, whose last line is a brace as well. -/
def areaHeader : Header where
  name := "area.hpp"
  doc := "Areas."
  includes := some ["memory", "SDL3/SDL_rect.h"]
  localIncludes := some ["video.hpp", "base.hpp"]
  entries := [("Area", .single ⟨{ name := "Area", kind := .struct },
    some [("width", .single { name := "width", kind := .var, type := some "int" })]⟩)]

/-- A header with both kinds of includes: its part has them all, but for those of the master. -/
theorem read_toLines_area :
    (∀ name ∈ areaHeader.includes.getD [], IsIncludeName name) ∧
      (∀ name ∈ areaHeader.localIncludes.getD [], IsIncludeName name) ∧
      (∀ line ∈ docLines [] areaHeader.doc ++ areaHeader.entries.toList.flatMap (Entry.lines []),
        startsWith (namespaceClose "SDL") line = false) ∧
      ∃ part, read {} "area.hpp" (areaHeader.toLines {}) = ⟨[], .ok part⟩ ∧
        part.name = "area.hpp" ∧ part.conditional = false ∧
        (part.deps.Pairwise (· < ·) ∧
          ∀ name, name ∈ part.deps ↔ name ∈ ["video.hpp", "base.hpp"]) ∧
        (part.includes.Pairwise (· ≤ ·) ∧
          part.includes.Perm (["memory", "SDL3/SDL_rect.h"].filter
            fun name => !startsWith "SDL3/".toList name.toList)) ∧
        part.content = some areaHeader.contentLines := by
  have hincludes : ∀ name ∈ areaHeader.includes.getD [], IsIncludeName name := by decide
  have hlocal : ∀ name ∈ areaHeader.localIncludes.getD [], IsIncludeName name := by decide
  have hclose : ∀ line ∈
      docLines [] areaHeader.doc ++ areaHeader.entries.toList.flatMap (Entry.lines []),
      startsWith (namespaceClose "SDL") line = false := by
    decide
  exact ⟨hincludes, hlocal, hclose, read_toLines rfl hincludes hlocal hclose⟩

end Part

end HeaderApi
