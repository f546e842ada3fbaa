import HeaderApi.Proofs.EntryLines
import HeaderApi.Proofs.ResolvedIncludes
import HeaderApi.Proofs.Texts
import Mathlib.Data.List.TakeWhile

/-!
# The includes of a parsed header

A header that was parsed can name any file in its includes, but a part only takes up names made of
word characters and a few marks.  So of the includes of a parsed header those with such names are
found again in the part of the printed header, and the others are lost.
-/

namespace HeaderApi

open Text

/-! ## The includes that parsing records -/

/-- A name that can stand between the marks of an include. -/
def IsBetweenMarks (name : String) : Prop :=
  name ≠ "" ∧ ∀ c ∈ name.toList, c ≠ '>' ∧ c ≠ '"'

namespace Header

/-- The name in an include ends before the first closing mark. -/
theorem isBetweenMarks_of_include? {directive name : List Char} {isQuoted : Bool}
    (h : include? directive = some (isQuoted, name)) : IsBetweenMarks (String.ofList name) := by
  have hname : ∃ text : List Char,
      name = text.takeWhile (fun c => c ≠ '>' && c ≠ '"') ∧ name ≠ [] := by
    unfold include? at h
    obtain ⟨text, -, h⟩ := Option.bind_eq_some_iff.1 h
    simp only [bind, Option.bind_some, Option.bind_none] at h
    -- without an opening mark there is no include
    split at h
    · split at h
      · rename_i hcond
        cases h
        exact ⟨_, rfl, of_decide_eq_true (Bool.and_eq_true_iff.1 hcond).1⟩
      · cases h
    · split at h
      · rename_i hcond
        cases h
        exact ⟨_, rfl, of_decide_eq_true (Bool.and_eq_true_iff.1 hcond).1⟩
      · cases h
    · cases h
  obtain ⟨text, rfl, hne⟩ := hname
  refine ⟨fun hempty => hne (String.ofList_eq_empty_iff.1 hempty), fun c hc => ?_⟩
  rw [String.toList_ofList] at hc
  simpa using List.mem_takeWhile_imp hc

/-- A builder whose includes all stood between the marks of an include. -/
structure Builder.NamesIncludes (b : Builder) : Prop where
  includes : ∀ name ∈ b.includes, IsBetweenMarks name
  localIncludes : ∀ name ∈ b.localIncludes, IsBetweenMarks name

/-- Two builders with the same includes. -/
def Builder.SameIncludes (b b' : Builder) : Prop :=
  b'.includes = b.includes ∧ b'.localIncludes = b.localIncludes

section Builder

variable {b b' : Builder}

theorem Builder.NamesIncludes.congr (h : b.NamesIncludes) (hsame : b.SameIncludes b') :
    b'.NamesIncludes :=
  ⟨hsame.1 ▸ h.includes, hsame.2 ▸ h.localIncludes⟩

/-- An include is taken in under the name between its marks. -/
theorem Builder.NamesIncludes.addInclude (h : b.NamesIncludes) (directive : String) :
    (b.addInclude directive).NamesIncludes := by
  have hconcat : ∀ (names : List String) (name : List Char),
      (∀ n ∈ names, IsBetweenMarks n) → IsBetweenMarks (String.ofList name) →
        ∀ n ∈ names ++ [String.ofList name], IsBetweenMarks n := by
    intro names name hnames hname n hn
    rcases List.mem_append.1 hn with hn | hn
    · exact hnames n hn
    · rw [List.mem_singleton.1 hn]
      exact hname
  unfold Builder.addInclude
  split
  · rename_i name hname
    exact ⟨h.includes, hconcat _ name h.localIncludes (isBetweenMarks_of_include? hname)⟩
  · rename_i name hname
    exact ⟨hconcat _ name h.includes (isBetweenMarks_of_include? hname), h.localIncludes⟩
  · exact h

/-- A token that is passed over brings in no other name. -/
theorem Builder.NamesIncludes.passOver (h : b.NamesIncludes) (token : Token) :
    (b.passOver token).NamesIncludes := by
  unfold Builder.passOver
  split
  · exact ⟨h.includes, h.localIncludes⟩
  · exact h.addInclude _
  · exact h

/-- Letting a doc float leaves the includes as they are. -/
theorem Builder.sameIncludes_floatPending (b : Builder) : b.SameIncludes b.floatPending.1 := by
  obtain ⟨_, _, _, hfloat⟩ := b.floatPending_eq
  rw [hfloat]
  exact ⟨rfl, rfl⟩

/-- A declaration leaves the includes as they are. -/
theorem Builder.declare_sameIncludes (members : String → RecordHead → Logged ParseError Entries)
    (b : Builder) (token : Token) (s : Signature) :
    Ensures b.SameIncludes (b.declare members token s) := by
  intro next hnext
  obtain ⟨name, body, -, rfl⟩ := b.declare_ensures token s next hnext
  obtain ⟨_, _, _, _, hbehind⟩ := b.declareWith_eq token s body
  rw [hbehind]
  exact ⟨rfl, rfl⟩

/-- Of the other statements only a directive can add an include. -/
theorem Builder.NamesIncludes.pass (h : b.NamesIncludes) (token : Token) :
    Ensures Builder.NamesIncludes (b.pass token) := by
  intro next hnext
  rw [b.pass_eq token next hnext]
  refine NamesIncludes.passOver (h.congr ?_) token
  obtain ⟨_, _, _, hfloat⟩ := Builder.floatPending_eq { b with template := none }
  rw [hfloat]
  exact ⟨rfl, rfl⟩

/-- Tokens bring in names that stood between the marks of an include. -/
theorem Builder.NamesIncludes.run {members : String → RecordHead → Logged ParseError Entries}
    {tokens : List Token} (h : b.NamesIncludes) :
    Ensures Builder.NamesIncludes (b.run members tokens) := by
  induction tokens generalizing b with
  | nil => exact .pure h
  | cons token tokens ih =>
    rw [Builder.run]
    split
    · exact .pure (h.congr ⟨rfl, rfl⟩)
    · exact .pure (h.congr ⟨rfl, rfl⟩)
    · exact Ensures.andThen fun _ => ih ((h.congr b.sameIncludes_floatPending).congr ⟨rfl, rfl⟩)
    · exact Ensures.andThen fun _ => ih (h.congr ⟨rfl, rfl⟩)
    · split
      · exact (b.declare_sameIncludes members token _).bind fun b' hb' => ih (h.congr hb')
      · exact (h.pass token).bind fun b' hb' => ih hb'

end Builder

/-- The includes of a parsed header stood between the marks of an include. -/
theorem isBetweenMarks_of_ofLines {name : String} {options : ParseOptions} {lines : List Line}
    {header : Header} (h : (ofLines name options lines).outcome = .ok header) :
    (∀ n ∈ header.includes.getD [], IsBetweenMarks n) ∧
      ∀ n ∈ header.localIncludes.getD [], IsBetweenMarks n := by
  have hget : ∀ names : List String, (if names = [] then none else some names).getD [] = names := by
    intro names
    split
    · rename_i hnil
      exact hnil.symm
    · rfl
  have hstart : Builder.NamesIncludes { name, options } :=
    ⟨List.forall_mem_nil _, List.forall_mem_nil _⟩
  have hbuilt : Ensures (fun header : Header =>
      (∀ n ∈ header.includes.getD [], IsBetweenMarks n) ∧
        ∀ n ∈ header.localIncludes.getD [], IsBetweenMarks n) (ofLines name options lines) := by
    unfold ofLines ofTokens Builder.runAll
    refine Ensures.andThen fun tokens => ?_
    refine (hstart.run.bind fun b hb => Ensures.andThen fun _ => .pure hb).bind fun b hb => .pure ?_
    unfold Builder.header
    dsimp only
    rw [hget, hget]
    exact ⟨hb.includes, hb.localIncludes⟩
  exact hbuilt header h

end Header

/-! ## The includes that a part takes up -/

namespace Part

variable {options : AmalgamOptions} {part : Part} {names : List String}

/-- The line of an include. -/
def includeLine (isQuoted : Bool) (name : String) : Line :=
  "#include ".toList ++ openingMark isQuoted :: (name.toList ++ [closingMark isQuoted])

/-- A text that is no run is one up to its first character that does not belong to it. -/
theorem exists_end_of_run {p : Char → Bool} {cs : List Char} (h : ¬∀ c ∈ cs, p c = true) :
    ∃ front d back, cs = front ++ d :: back ∧ (∀ c ∈ front, p c = true) ∧ p d = false := by
  have hdrop : cs.dropWhile p ≠ [] := fun hnil => h (List.dropWhile_eq_nil_iff.1 hnil)
  obtain ⟨d, back, hback⟩ := List.exists_cons_of_ne_nil hdrop
  refine ⟨cs.takeWhile p, d, back, ?_, fun c hc => List.mem_takeWhile_imp hc,
    eq_false_of_dropWhile hback⟩
  rw [← hback, List.takeWhile_append_dropWhile]

/-- A name between the marks of an include is read back when it has the form that a part takes up,
and otherwise the line is no include. -/
theorem include?_includeLine {name : String} (h : IsBetweenMarks name) (isQuoted : Bool) :
    include? (includeLine isQuoted name) =
      if IsIncludeName name then some (isQuoted, name) else none := by
  unfold includeLine
  by_cases hname : IsIncludeName name
  · rw [if_pos hname]
    exact include?_of_name hname isQuoted
  · rw [if_neg hname]
    -- The name ends early at a character that closes no include.
    obtain ⟨front, d, back, hsplit, hfront, hd⟩ :=
      exists_end_of_run fun hall => hname ⟨h.1, hall⟩
    have hmarks := h.2 d (by rw [hsplit]; simp)
    rw [include?_marked, hsplit, List.append_assoc, List.cons_append,
      dropWhile_append_cons hfront hd, List.head?_cons, if_neg]
    simp [hmarks.1, hmarks.2]

/-- The names that a part takes up. -/
def readable (names : List String) : List String := names.filter fun name => IsIncludeName name

theorem mem_readable {name : String} :
    name ∈ readable names ↔ name ∈ names ∧ IsIncludeName name := by
  rw [readable, List.mem_filter, decide_eq_true_eq]

theorem readable_cons_of_pos {name : String} (h : IsIncludeName name) :
    readable (name :: names) = name :: readable names :=
  List.filter_cons_of_pos (by simpa using h)

theorem readable_cons_of_neg {name : String} (h : ¬IsIncludeName name) :
    readable (name :: names) = readable names :=
  List.filter_cons_of_neg (by simpa using h)

/-- Printed includes say the same without the names that a part does not take up. -/
theorem readIncludes_filter (h : ∀ name ∈ names, IsBetweenMarks name) (isQuoted : Bool)
    (rest : List Line) :
    readIncludes options part (names.map (includeLine isQuoted) ++ rest) =
      readIncludes options part
        ((readable names).map (includeLine isQuoted) ++ rest) := by
  induction names generalizing part with
  | nil => rfl
  | cons name names ih =>
    obtain ⟨hname, hnames⟩ := List.forall_mem_cons.1 h
    have hread := include?_includeLine hname isQuoted
    by_cases hkept : IsIncludeName name
    · rw [if_pos hkept] at hread
      rw [readable_cons_of_pos hkept, List.map_cons, List.map_cons, List.cons_append,
        List.cons_append, readIncludes, readIncludes, hread]
      cases isQuoted with
      | true => exact ih hnames
      | false =>
        dsimp only
        rw [ih hnames, ih hnames]
    · rw [if_neg hkept] at hread
      have hopen : startsWith (namespaceOpen options.namespaceName)
          (includeLine isQuoted name) = false := rfl
      have hif : startsWith "#if".toList (includeLine isQuoted name) = false := rfl
      rw [readable_cons_of_neg hkept, List.map_cons, List.cons_append, readIncludes, hread]
      dsimp only
      rw [hopen, hif]
      exact ih hnames

/-- The part that a printed header is, with the includes that it takes up. -/
def takenUp (options : AmalgamOptions) (header : Header) (content : List Line) : Part where
  name := header.name
  deps := insertTexts (readable (sortTexts (header.localIncludes.getD []))) []
  includes := (readable (sortTexts (header.includes.getD []))).filter
    fun name => !startsWith options.masterStart.toList name.toList
  content := some content

/-- What the printed includes of a header say when they all stand between their marks. -/
theorem readIncludes_betweenMarks {header : Header}
    (hincludes : ∀ name ∈ header.includes.getD [], IsBetweenMarks name)
    (hlocal : ∀ name ∈ header.localIncludes.getD [], IsBetweenMarks name) (rest : List Line) :
    readIncludes options part (header.includeLines ++ rest) =
      readIncludes options { part with
        includes := part.includes ++ (readable (sortTexts (header.includes.getD []))).filter
          fun name => !startsWith options.masterStart.toList name.toList
        deps := insertTexts (readable (sortTexts (header.localIncludes.getD []))) part.deps }
        rest := by
  have hsystem : ∀ name ∈ sortTexts (header.includes.getD []), IsBetweenMarks name :=
    fun name hname => hincludes name (mem_sortTexts.1 hname)
  have hquoted : ∀ name ∈ sortTexts (header.localIncludes.getD []), IsBetweenMarks name :=
    fun name hname => hlocal name (mem_sortTexts.1 hname)
  have hform : ∀ names : List String, ∀ name ∈ readable names, IsIncludeName name :=
    fun names name hname => (mem_readable.1 hname).2
  unfold Header.includeLines
  rw [List.append_assoc]
  refine (readIncludes_filter hsystem false _).trans ?_
  refine (readIncludes_system (hform _) _).trans ?_
  refine (readIncludes_filter hquoted true _).trans ?_
  exact readIncludes_quoted (hform _) rest

/-- The dependencies that are taken up are the readable local includes. -/
theorem mem_deps_takenUp {header : Header} {content : List Line} {name : String} :
    name ∈ (takenUp options header content).deps ↔
      name ∈ header.localIncludes.getD [] ∧ IsIncludeName name := by
  rw [takenUp, mem_insertTexts, or_iff_left List.not_mem_nil, mem_readable, mem_sortTexts]

/-- The includes that are taken up are the readable system includes, without those of the master. -/
theorem mem_includes_takenUp {header : Header} {content : List Line} {name : String} :
    name ∈ (takenUp options header content).includes ↔
      name ∈ header.includes.getD [] ∧ IsIncludeName name ∧
        startsWith options.masterStart.toList name.toList = false := by
  rw [takenUp, List.mem_filter, mem_readable, mem_sortTexts, Bool.not_eq_true', and_assoc]

/-- A printed header whose includes all stand between their marks is read without failure. -/
theorem exists_read_takenUp {header : Header} (options : HeaderOptions) (amalgam : AmalgamOptions)
    (hnamespace : amalgam.namespaceName = options.namespaceName)
    (hincludes : ∀ name ∈ header.includes.getD [], IsBetweenMarks name)
    (hlocal : ∀ name ∈ header.localIncludes.getD [], IsBetweenMarks name) :
    ∃ content, read amalgam header.name (header.toLines options) =
      ⟨[], .ok (takenUp amalgam header content)⟩ := by
  exact read_of_readIncludes hnamespace (readIncludes_betweenMarks hincludes hlocal)

/-- The includes of a header reach a part: every quoted one is among its dependencies, and every
system include that the master include does not cover is among its system includes. -/
def Survives (options : AmalgamOptions) (header : Header) (part : Part) : Prop :=
  (∀ name ∈ header.localIncludes.getD [], name ∈ part.deps) ∧
    ∀ name ∈ header.includes.getD [],
      startsWith options.masterStart.toList name.toList = false → name ∈ part.includes

/-- **The includes of a parsed header.**  A header that was parsed is read without failure when it
has been printed.  The dependencies of its part are the quoted includes of the header whose names
are made of word characters, dots, slashes, stars and hyphens; the system includes of the part are
those of the header with such names that the master include does not cover.  So the includes
survive exactly when all of them that should have names of this form. -/
theorem read_parsed {name : String} {reading : ParseOptions} {lines : List Line} {header : Header}
    (options : HeaderOptions) (amalgam : AmalgamOptions)
    (hnamespace : amalgam.namespaceName = options.namespaceName)
    (hparsed : (Header.ofLines name reading lines).outcome = .ok header) :
    ∃ part, read amalgam header.name (header.toLines options) = ⟨[], .ok part⟩ ∧
      (∀ n, n ∈ part.deps ↔ n ∈ header.localIncludes.getD [] ∧ IsIncludeName n) ∧
      (∀ n, n ∈ part.includes ↔ n ∈ header.includes.getD [] ∧ IsIncludeName n ∧
        startsWith amalgam.masterStart.toList n.toList = false) ∧
      (Survives amalgam header part ↔
        (∀ n ∈ header.localIncludes.getD [], IsIncludeName n) ∧
          ∀ n ∈ header.includes.getD [],
            startsWith amalgam.masterStart.toList n.toList = false → IsIncludeName n) := by
  obtain ⟨hincludes, hlocal⟩ := Header.isBetweenMarks_of_ofLines hparsed
  obtain ⟨content, hread⟩ := exists_read_takenUp options amalgam hnamespace hincludes hlocal
  refine ⟨takenUp amalgam header content, hread, fun _ => mem_deps_takenUp,
    fun _ => mem_includes_takenUp, ?_⟩
  refine and_congr (forall₂_congr fun n hn => ?_) (forall₃_congr fun n hn hkept => ?_)
  · exact mem_deps_takenUp.trans (and_iff_right hn)
  · exact mem_includes_takenUp.trans ⟨fun h => h.2.1, fun h => ⟨hn, h, hkept⟩⟩

/-- A header with an include of each kind, and one whose name has other characters. -/
def gccLines : List Line :=
  ["#include <vector>", "#include \"video.hpp\"", "#include <bits/c++config.h>"].map String.toList

/-- The header of these lines. -/
def gccHeader : Header where
  name := "gcc.hpp"
  includes := some ["vector", "bits/c++config.h"]
  localIncludes := some ["video.hpp"]

theorem ofLines_gccLines : (Header.ofLines "gcc.hpp" {} gccLines).outcome = .ok gccHeader := rfl

/-- A header with an include that is not readable loses that include and no other. -/
theorem read_parsed_gcc :
    (Header.ofLines "gcc.hpp" {} gccLines).outcome = .ok gccHeader ∧
      ∃ part, read {} "gcc.hpp" (gccHeader.toLines {}) = ⟨[], .ok part⟩ ∧
        "video.hpp" ∈ part.deps ∧ "vector" ∈ part.includes ∧
        "bits/c++config.h" ∉ part.includes ∧ ¬Survives {} gccHeader part := by
  obtain ⟨part, hread, hdeps, hincludes, hsurvives⟩ :=
    read_parsed {} {} rfl ofLines_gccLines
  have hodd : ¬IsIncludeName "bits/c++config.h" := by decide
  refine ⟨ofLines_gccLines, part, hread, (hdeps _).2 ⟨by decide, by decide⟩,
    (hincludes _).2 ⟨by decide, by decide, by decide⟩, fun hmem => hodd ((hincludes _).1 hmem).2.1,
    fun h => ?_⟩
  exact hodd ((hsurvives.1 h).2 _ (by decide) (by decide))

/-- The includes of a parsed header do not always reach the part of the printed header. -/
theorem not_forall_survives :
    ¬∀ (name : String) (lines : List Line) (header : Header) (part : Part),
      (Header.ofLines name {} lines).outcome = .ok header →
      read {} header.name (header.toLines {}) = ⟨[], .ok part⟩ → Survives {} header part := by
  intro hall
  obtain ⟨hincludes, hlocal⟩ := Header.isBetweenMarks_of_ofLines ofLines_gccLines
  obtain ⟨content, hread⟩ := exists_read_takenUp {} {} rfl hincludes hlocal
  have hmem := (hall "gcc.hpp" gccLines gccHeader _ ofLines_gccLines hread).2
    "bits/c++config.h" (by decide) (by decide)
  have hname : IsIncludeName "bits/c++config.h" := (mem_includes_takenUp.1 hmem).2.1
  exact absurd hname (by decide)

end Part

end HeaderApi
