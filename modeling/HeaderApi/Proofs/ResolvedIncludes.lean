import HeaderApi.Amalgam.Collection
import HeaderApi.Proofs.PrintedParts
import HeaderApi.Proofs.SelectedFiles

/-!
# Includes that resolve

A run renames files, but it copies their quoted includes as they are.  So the includes of a target
name files of the target just when those of the source are written with the names of the targets.
A set of headers that is closed under its includes can be collected from each of its headers: every
name that is looked for is there.
-/

namespace HeaderApi

open Text

/-! ## Dependencies of a printed header -/

namespace Part

variable {options : AmalgamOptions} {names : List String}

/-- A line before the namespace that adds no dependency but those of some names. -/
inductive Passes (options : AmalgamOptions) (names : List String) (line : Line) : Prop
  | system {name : String} (h : include? line = some (false, name))
  | quoted {name : String} (h : include? line = some (true, name)) (hname : name ∈ names)
  | other (h : include? line = none)
      (hopen : startsWith (namespaceOpen options.namespaceName) line = false)
      (hif : startsWith "#if".toList line = false)

/-- Such lines are read without failure, and the dependencies are among the names. -/
theorem readIncludes_of_passes {lines : List Line} (h : ∀ line ∈ lines, Passes options names line)
    (part : Part) (hdeps : ∀ dep ∈ part.deps, dep ∈ names) :
    ∃ part', (∀ rest, readIncludes options part (lines ++ rest) = readIncludes options part' rest) ∧
      ∀ dep ∈ part'.deps, dep ∈ names := by
  induction lines generalizing part with
  | nil => exact ⟨part, fun _ => rfl, hdeps⟩
  | cons line lines ih =>
    obtain ⟨hline, hlines⟩ := List.forall_mem_cons.1 h
    -- one line leads to a part from which the others are read
    have hnext : ∃ next : Part, (∀ dep ∈ next.deps, dep ∈ names) ∧
        ∀ rest, readIncludes options part (line :: rest) = readIncludes options next rest := by
      cases hline with
      | @system name hinclude =>
        by_cases hmaster : startsWith options.masterStart.toList name.toList = true
        · refine ⟨part, hdeps, fun rest => ?_⟩
          rw [readIncludes, hinclude]
          exact if_pos hmaster
        · refine ⟨{ part with includes := part.includes ++ [name] }, hdeps, fun rest => ?_⟩
          rw [readIncludes, hinclude]
          exact if_neg hmaster
      | @quoted name hinclude hname =>
        refine ⟨part.addDep name, fun dep hdep => ?_, fun rest => ?_⟩
        · rcases mem_insertText.1 hdep with rfl | hdep
          · exact hname
          · exact hdeps dep hdep
        · rw [readIncludes, hinclude]
      | other hinclude hopen hif =>
        refine ⟨part, hdeps, fun rest => ?_⟩
        rw [readIncludes, hinclude]
        dsimp only
        rw [if_neg (Bool.eq_false_iff.1 hopen), if_neg (Bool.eq_false_iff.1 hif)]
    obtain ⟨next, hdepsNext, hread⟩ := hnext
    obtain ⟨part', hlater, hdepsLater⟩ := ih hlines next hdepsNext
    exact ⟨part', fun rest => (hread _).trans (hlater rest), hdepsLater⟩

/-- An include line opens neither a namespace nor a condition. -/
theorem passes_of_marked (isQuoted : Bool) (tail : Line)
    (h : ∀ name, include? ("#include ".toList ++ openingMark isQuoted :: tail) = some (true, name) →
      name ∈ names) :
    Passes options names ("#include ".toList ++ openingMark isQuoted :: tail) := by
  cases hinclude : include? ("#include ".toList ++ openingMark isQuoted :: tail) with
  | none => exact .other hinclude rfl rfl
  | some found =>
    obtain ⟨quoted, name⟩ := found
    cases quoted with
    | false => exact .system hinclude
    | true => exact .quoted hinclude (h name hinclude)

/-- A system include is passed over. -/
theorem passes_systemInclude (name : String) : Passes options names (systemInclude name) := by
  refine passes_of_marked false (name.toList ++ ['>']) fun found hfound => ?_
  rw [include?_marked] at hfound
  split at hfound
  · cases hfound
  · cases hfound

/-- A quoted include is read as its name, or not at all when the name is empty. -/
theorem passes_quotedInclude {name : String} (hchars : ∀ c ∈ name.toList, isIncludeChar c = true)
    (hname : name ∈ names) : Passes options names (quotedInclude name) := by
  refine passes_of_marked true (name.toList ++ ['"']) fun found hfound => ?_
  by_cases hempty : name = ""
  · subst hempty
    cases hfound
  · have hread := include?_quotedInclude ⟨hempty, hchars⟩
    cases hread.symm.trans hfound
    exact hname

/-- The include lines of a printed header. -/
theorem passes_includeLines {header : Header}
    (hchars : ∀ name ∈ header.localIncludes.getD [], ∀ c ∈ name.toList, isIncludeChar c = true)
    {line : Line} (hline : line ∈ header.includeLines) :
    Passes options (header.localIncludes.getD []) line := by
  rcases List.mem_append.1 hline with hline | hline
  · obtain ⟨name, -, rfl⟩ := List.mem_map.1 hline
    exact passes_systemInclude name
  · obtain ⟨name, hname, rfl⟩ := List.mem_map.1 hline
    rw [mem_sortTexts] at hname
    exact passes_quotedInclude (hchars name hname) hname

/-- A content that is closed can be read. -/
theorem readContent_isSome (closing : Line) (content rest : List Line) :
    (readContent closing (content ++ closing :: rest)).isSome = true := by
  induction content with
  | nil =>
    rw [List.nil_append, readContent, if_pos (startsWith_iff.2 ⟨[], (List.append_nil _).symm⟩)]
    rfl
  | cons line content ih =>
    rw [List.cons_append, readContent]
    split
    · rfl
    · rw [Option.isSome_map]
      exact ih

/-- A printed header is read without failure when its includes are: behind them the namespace opens,
which ends the search for dependencies. -/
theorem read_of_readIncludes {header : Header} {options : HeaderOptions} {amalgam : AmalgamOptions}
    (hnamespace : amalgam.namespaceName = options.namespaceName) {name : String} {part : Part}
    (hincludes : ∀ rest, readIncludes amalgam { name } (header.includeLines ++ rest) =
      readIncludes amalgam part rest) :
    ∃ content, read amalgam name (header.toLines options) =
      ⟨[], .ok { part with content := some content }⟩ := by
  obtain ⟨content, hcontent⟩ := Option.isSome_iff_exists.1
    (readContent_isSome (namespaceClose options.namespaceName) header.contentLines
      [[], "#endif /* ".toList ++ Header.guard options header.name ++ " */".toList])
  have hopen : startsWith (namespaceOpen options.namespaceName)
      (namespaceOpen options.namespaceName) = true :=
    startsWith_iff.2 ⟨[], (List.append_nil _).symm⟩
  have hinclude : include? (namespaceOpen options.namespaceName) = none := rfl
  refine ⟨content, ?_⟩
  unfold read
  rw [afterGuard_toLines, readIncludes_empty, readIncludes_block _ hincludes, readIncludes,
    hinclude]
  dsimp only
  rw [hnamespace, if_pos hopen, hcontent]
  rfl

/-- **Reading a printed header** never fails, and its dependencies are among the quoted includes. -/
theorem exists_read_toLines {header : Header} {options : HeaderOptions} {amalgam : AmalgamOptions}
    (hnamespace : amalgam.namespaceName = options.namespaceName)
    (hchars : ∀ name ∈ header.localIncludes.getD [], ∀ c ∈ name.toList, isIncludeChar c = true)
    (name : String) :
    ∃ part, read amalgam name (header.toLines options) = ⟨[], .ok part⟩ ∧
      ∀ dep ∈ part.deps, dep ∈ header.localIncludes.getD [] := by
  have hlines : ∀ line ∈ header.includeLines, Passes amalgam (header.localIncludes.getD []) line :=
    fun _ => passes_includeLines hchars
  obtain ⟨part, hpart, hdeps⟩ := readIncludes_of_passes hlines { name } (List.forall_mem_nil _)
  obtain ⟨content, hread⟩ := read_of_readIncludes hnamespace hpart
  exact ⟨{ part with content := some content }, hread, hdeps⟩

end Part

/-! ## Collecting -/

namespace Collection

/-- Headers that can be read, and whose dependencies are all there. -/
def Closed (amalgam : AmalgamOptions) (files : Keyed (List Line)) : Prop :=
  ∀ pair ∈ files, ∃ log part, Part.read amalgam pair.1 pair.2 = ⟨log, .ok part⟩ ∧
    ∀ dep ∈ part.deps, dep ∈ Keyed.keys files

variable {amalgam : AmalgamOptions} {files : Keyed (List Line)}

/-- **Closed headers.**  From a queue of headers that are there, all that is looked for is there. -/
theorem Closed.collectFrom (h : Closed amalgam files) (fuel : Nat) (seen : List String)
    {queue : List String} (hqueue : ∀ name ∈ queue, name ∈ Keyed.keys files) :
    ∃ parts, (collectFrom (tableResolver files) amalgam fuel seen queue).outcome = .ok parts := by
  induction fuel generalizing seen queue with
  | zero => exact ⟨[], rfl⟩
  | succ fuel ih =>
    rw [Collection.collectFrom]
    split
    · exact ⟨[], rfl⟩
    · rename_i name rest hrest
      have hsuffix : name :: rest <:+ queue := by
        rw [← hrest]
        exact List.dropWhile_suffix _
      obtain ⟨lines, hlines⟩ := Option.isSome_iff_exists.1
        (Keyed.find?_isSome_iff.2 (hqueue name (hsuffix.mem List.mem_cons_self)))
      obtain ⟨log, part, hread, hdeps⟩ := h _ (Keyed.mem_of_find? hlines)
      have hresolve : tableResolver files name = .ok lines := by
        unfold tableResolver
        rw [hlines]
      -- The queue goes on with dependencies, and they are there as well.
      have hnext : ∀ other ∈ rest ++ part.deps, other ∈ Keyed.keys files := by
        intro other hother
        rcases List.mem_append.1 hother with hother | hother
        · exact hqueue other (hsuffix.mem (List.mem_cons_of_mem _ hother))
        · exact hdeps other hother
      obtain ⟨parts, hparts⟩ := ih (name :: seen) hnext
      generalize hlater : Collection.collectFrom (tableResolver files) amalgam fuel (name :: seen)
        (rest ++ part.deps) = later at hparts
      obtain ⟨log', outcome⟩ := later
      cases hparts
      refine ⟨part :: parts, ?_⟩
      simp only [hresolve, Except.mapError, Logged.write, Logged.ofExcept, Logged.ok_bind, hread,
        hlater, Logged.pure_def]

/-- The headers of a closed table can be collected from each of them. -/
theorem Closed.collect (h : Closed amalgam files) (fuel : Nat) {root : String}
    (hroot : root ∈ Keyed.keys files) :
    ∃ collection, (collect (tableResolver files) amalgam fuel root).outcome = .ok collection := by
  have hqueue : ∀ name ∈ [root], name ∈ Keyed.keys files := by
    intro name hname
    rw [List.mem_singleton.1 hname]
    exact hroot
  obtain ⟨parts, hparts⟩ := h.collectFrom fuel [] hqueue
  generalize hrun :
    Collection.collectFrom (tableResolver files) amalgam fuel [] [root] = run at hparts
  obtain ⟨log, outcome⟩ := run
  cases hparts
  refine ⟨⟨includesOf amalgam parts, parts⟩, ?_⟩
  simp only [Collection.collect, hrun, Logged.ok_bind, Logged.pure_def]

end Collection

/-! ## Headers of an interface -/

theorem Api.toLines_eq (options : HeaderOptions) (api : Api) :
    api.toLines options = Keyed.mapValues (Header.toLines options) api.files := rfl

/-- Printing the headers of an interface keeps their names. -/
theorem Api.keys_toLines (options : HeaderOptions) (api : Api) :
    Keyed.keys (api.toLines options) = Keyed.keys api.files := by
  rw [toLines_eq]
  unfold Keyed.keys Keyed.mapValues
  rw [List.map_map]
  rfl

/-- The printed headers of an interface are closed when their quoted includes name headers of it. -/
theorem Api.closed_toLines {api : Api} {options : HeaderOptions} {amalgam : AmalgamOptions}
    (hnamespace : amalgam.namespaceName = options.namespaceName)
    (hchars : ∀ pair ∈ api.files, ∀ name ∈ pair.2.localIncludes.getD [],
      ∀ c ∈ name.toList, Part.isIncludeChar c = true)
    (hthere : ∀ pair ∈ api.files, ∀ name ∈ pair.2.localIncludes.getD [],
      name ∈ Keyed.keys api.files) :
    Collection.Closed amalgam (api.toLines options) := by
  intro printed hprinted
  obtain ⟨pair, hpair, rfl⟩ := List.mem_map.1 hprinted
  obtain ⟨part, hread, hdeps⟩ :=
    Part.exists_read_toLines hnamespace (hchars pair hpair) pair.1
  refine ⟨[], part, hread, fun dep hdep => ?_⟩
  rw [keys_toLines]
  exact hthere pair hpair dep (hdeps dep hdep)

namespace Transform

variable {rules : Rules}

/-! ## Includes of the target -/

section

variable [CharacterNames]

/-- A file takes its quoted includes from its source, unless its rules give others. -/
theorem transformFile_localIncludes {source header : Header} {run after : Run}
    (hlocal : ∀ key, (run.rules.fileRules key).localIncludes.get? = none)
    (hrun : transformFile source run = .ok header after) :
    header.localIncludes = source.localIncludes := by
  obtain ⟨key, name, s, -, hsteps, -⟩ := transformFile_cases hrun
  obtain ⟨results, between, doc, -, -, rfl, -, -⟩ := fileSteps_cases hsteps
  have hnone : (opened run key).file.localIncludes.get? = none := hlocal key
  dsimp only
  rw [hnone]
  rfl

omit [CharacterNames] in
theorem localIncludes_congr {rules' : Rules} (h : rules'.withoutPatches = rules.withoutPatches)
    (key : Option String) :
    (rules'.fileRules key).localIncludes = (rules.fileRules key).localIncludes := by
  refine FileRules.apply_congr FileRules.localIncludes (fun _ => rfl) ?_
  rw [← Rules.withoutPatches_fileRules, h, Rules.withoutPatches_fileRules]

/-- The files of a run with different targets: their targets follow in order, each with the quoted
includes of its source. -/
theorem transformFiles_localIncludes {results files out : Keyed Header} {run run' : Run}
    (hlocal : ∀ key, (run.rules.fileRules key).localIncludes.get? = none)
    (hnodup : (results.map (fun pair => some pair.1) ++ files.map (targetName? run.rules)).Nodup)
    (hrun : transformFiles results files run = .ok out run') :
    out.map (fun pair => (some pair.1, pair.2.localIncludes)) =
      results.map (fun pair => (some pair.1, pair.2.localIncludes)) ++
        files.map fun pair => (targetName? run.rules pair, pair.2.localIncludes) := by
  induction files generalizing results run with
  | nil =>
    cases hrun
    rw [List.map_nil, List.append_nil]
  | cons file files ih =>
    obtain ⟨header, between, hheader, hrun⟩ := exists_of_bind hrun
    have hkept := withoutPatches_of_transformFile hheader
    have hsame := targetName?_congr hkept
    have hname := targetName?_of_transformFile hheader
    rw [List.map_cons, hname, ← List.singleton_append, ← List.append_assoc] at hnodup
    -- A new target goes behind the others, so the order of the sources is kept.
    have hnew : header.name ∉ Keyed.keys results := by
      intro hmem
      obtain ⟨pair, hpair, heq⟩ := List.mem_map.1 hmem
      have hdisjoint := (List.nodup_append.1 (List.nodup_append.1 hnodup).1).2.2
      have hold : some header.name ∈ results.map fun pair => some pair.1 :=
        List.mem_map.2 ⟨pair, hpair, by rw [heq]⟩
      exact hdisjoint _ hold _ (List.mem_singleton.2 rfl) rfl
    rw [Keyed.insert_of_not_mem hnew] at hrun
    have hlater := ih (fun key => by rw [localIncludes_congr hkept]; exact hlocal key)
      (by rw [hsame, List.map_append]; exact hnodup) hrun
    rw [hlater, hsame, List.map_append, List.append_assoc]
    have hpair : (targetName? run.rules file, file.2.localIncludes) =
        (some header.name, header.localIncludes) := by
      rw [hname, transformFile_localIncludes hlocal hheader]
    rw [List.map_cons (l := files), hpair]
    rfl

/-- Files that are targets in the order of their sources and have the quoted includes of these. -/
def Copied (rules : Rules) (sources targets : Keyed Header) : Prop :=
  targets.map (fun pair => (some pair.1, pair.2.localIncludes)) =
    sources.map fun pair => (targetName? rules pair, pair.2.localIncludes)

/-- Without includes in the rules the targets have those of their sources. -/
theorem copied_transformApi {api : Api} {out : Outcome}
    (hlocal : ∀ key, (rules.fileRules key).localIncludes.get? = none)
    (hnodup : (api.files.map (targetName? rules)).Nodup)
    (hrun : (transformApi rules none api).outcome = .ok out) :
    Copied rules api.files out.api.files := by
  obtain ⟨_, _, hfiles, rfl⟩ := transformApi_cases hrun
  have hall : (api.files.filter fun pair => isSelected none pair.1) = api.files :=
    List.filter_eq_self.2 fun _ _ => rfl
  rw [hall] at hfiles
  have hempty : (([] : Keyed Header).map (fun pair => some pair.1) ++
      api.files.map (targetName? rules)).Nodup := hnodup
  exact transformFiles_localIncludes hlocal hempty hfiles

/-- A name is that of a target when it is the target name of a source. -/
theorem Copied.mem_keys_iff {sources targets : Keyed Header} (h : Copied rules sources targets)
    (name : String) :
    name ∈ Keyed.keys targets ↔ some name ∈ sources.map (targetName? rules) := by
  have hnames := congrArg (List.map Prod.fst) h
  rw [List.map_map, List.map_map] at hnames
  have hkeys : sources.map (targetName? rules) = targets.map fun pair => some pair.1 := hnames.symm
  rw [hkeys, Keyed.keys, List.mem_map, List.mem_map]
  simp only [Option.some.injEq]

/-- The targets include what the sources include. -/
theorem Copied.forall_includes_iff {sources targets : Keyed Header}
    (h : Copied rules sources targets) (P : String → Prop) :
    (∀ pair ∈ targets, ∀ name ∈ pair.2.localIncludes.getD [], P name) ↔
      ∀ pair ∈ sources, ∀ name ∈ pair.2.localIncludes.getD [], P name := by
  have hincludes := congrArg (List.map fun pair => pair.2.getD []) h
  rw [List.map_map, List.map_map] at hincludes
  have hsame : targets.map (fun pair => pair.2.localIncludes.getD []) =
      sources.map fun pair => pair.2.localIncludes.getD [] := hincludes
  have hforall : ∀ files : Keyed Header,
      (∀ pair ∈ files, ∀ name ∈ pair.2.localIncludes.getD [], P name) ↔
        ∀ names ∈ files.map (fun pair => pair.2.localIncludes.getD []), ∀ name ∈ names, P name := by
    intro files
    rw [List.forall_mem_map]
  rw [hforall targets, hforall sources, hsame]

/-- **Includes of the target.**  Under rules that give no quoted includes, for an interface whose
files have different targets, a run copies the quoted includes of every file.  So those of the
target name files of the target if and only if those of the source are names of targets.  In this
case, when they are made of the characters of an include, the printed target can be collected from
each of its files, and no name that is looked for is missing. -/
theorem transformApi_localIncludes {api : Api} {out : Outcome}
    (hlocal : ∀ key, (rules.fileRules key).localIncludes.get? = none)
    (hnodup : (api.files.map (targetName? rules)).Nodup)
    (hrun : (transformApi rules none api).outcome = .ok out) :
    Copied rules api.files out.api.files ∧
      ((∀ pair ∈ out.api.files, ∀ name ∈ pair.2.localIncludes.getD [],
          name ∈ Keyed.keys out.api.files) ↔
        ∀ pair ∈ api.files, ∀ name ∈ pair.2.localIncludes.getD [],
          some name ∈ api.files.map (targetName? rules)) ∧
      ((∀ pair ∈ api.files, ∀ name ∈ pair.2.localIncludes.getD [],
          some name ∈ api.files.map (targetName? rules) ∧
            ∀ c ∈ name.toList, Part.isIncludeChar c = true) →
        ∀ (options : HeaderOptions) (amalgam : AmalgamOptions),
          amalgam.namespaceName = options.namespaceName →
          ∀ root ∈ Keyed.keys out.api.files, ∀ fuel, ∃ collection,
            (Collection.collect (Collection.tableResolver (out.api.toLines options)) amalgam fuel
              root).outcome = .ok collection) := by
  have hcopied := copied_transformApi hlocal hnodup hrun
  refine ⟨hcopied, ?_, fun hnamed options amalgam hnamespace root hroot fuel => ?_⟩
  · rw [hcopied.forall_includes_iff]
    simp only [hcopied.mem_keys_iff]
  · have hthere := (hcopied.forall_includes_iff fun name => name ∈ Keyed.keys out.api.files).2
      fun pair hpair name hname => (hcopied.mem_keys_iff name).2 (hnamed pair hpair name hname).1
    have hchars := (hcopied.forall_includes_iff fun name =>
      ∀ c ∈ name.toList, Part.isIncludeChar c = true).2
      fun pair hpair name hname => (hnamed pair hpair name hname).2
    have hclosed : Collection.Closed amalgam (out.api.toLines options) :=
      Api.closed_toLines hnamespace hchars hthere
    refine hclosed.collect fuel ?_
    rw [Api.keys_toLines]
    exact hroot

end

/-- Two headers; the second includes a file of the given name. -/
def includeApi (name : String) : Api where
  files := [
    ("SDL_rect.h", {
      name := "SDL_rect.h"
      entries := [("SDL_Point", .single { name := "SDL_Point", kind := .struct })] }),
    ("SDL_video.h", { name := "SDL_video.h", localIncludes := some [name] })]

/-- Rules that drop an opening and leave docs alone. -/
def includeRules : Rules where
  prefixes := some ["SDL_"]
  docRules := some []

/-- The target of the two headers. -/
def includeTarget (name : String) : Outcome where
  api := { files := [
    ("rect.hpp", {
      name := "rect.hpp"
      doc := "@file rect.hpp"
      entries := [("Point", .single {
        name := "Point", kind := .typeAlias, type := some "SDL_Point"
        sourceName := some "SDL_Point" })] }),
    ("video.hpp", {
      name := "video.hpp", doc := "@file video.hpp", localIncludes := some [name] })] }
  warnings := []
  rules := includeRules

theorem transformApi_includeTarget :
    (transformApi includeRules none (includeApi "rect.hpp")).outcome =
      .ok (includeTarget "rect.hpp") := rfl

theorem transformApi_includeSource :
    (transformApi includeRules none (includeApi "SDL_rect.h")).outcome =
      .ok (includeTarget "SDL_rect.h") := rfl

theorem localIncludes_include (key : Option String) :
    (includeRules.fileRules key).localIncludes.get? = none := by
  cases key <;> rfl

theorem targets_include (name : String) :
    (includeApi name).files.map (targetName? includeRules) =
      [some "rect.hpp", some "video.hpp"] := by
  have hrect : placed? includeRules "SDL_rect.h" = some (none, "rect.hpp") := rfl
  have hvideo : placed? includeRules "SDL_video.h" = some (none, "video.hpp") := rfl
  simp only [includeApi, List.map_cons, List.map_nil, targetName?, hrect, hvideo, Option.map_some]

/-- The two targets have names of their own. -/
theorem nodup_include (name : String) :
    ((includeApi name).files.map (targetName? includeRules)).Nodup := by
  rw [targets_include]
  decide

/-- An include of a target is resolved among the targets. -/
theorem transformApi_localIncludes_rect :
    (∀ key, (includeRules.fileRules key).localIncludes.get? = none) ∧
      ((includeApi "rect.hpp").files.map (targetName? includeRules)).Nodup ∧
      (transformApi includeRules none (includeApi "rect.hpp")).outcome =
        .ok (includeTarget "rect.hpp") ∧
      Copied includeRules (includeApi "rect.hpp").files (includeTarget "rect.hpp").api.files ∧
      ∃ collection, (Collection.collect
        (Collection.tableResolver ((includeTarget "rect.hpp").api.toLines {})) {} 3
        "video.hpp").outcome = .ok collection := by
  have hnamed : ∀ pair ∈ (includeApi "rect.hpp").files, ∀ name ∈ pair.2.localIncludes.getD [],
      some name ∈ (includeApi "rect.hpp").files.map (targetName? includeRules) ∧
        ∀ c ∈ name.toList, Part.isIncludeChar c = true := by
    have hrect : Part.IsIncludeName "rect.hpp" := by decide
    rw [targets_include]
    exact List.forall_mem_cons.2 ⟨List.forall_mem_nil _,
      List.forall_mem_singleton.2 (List.forall_mem_singleton.2 ⟨List.mem_cons_self, hrect.2⟩)⟩
  obtain ⟨hcopied, -, hcollect⟩ := transformApi_localIncludes localIncludes_include
    (nodup_include "rect.hpp") transformApi_includeTarget
  exact ⟨localIncludes_include, nodup_include "rect.hpp", transformApi_includeTarget, hcopied,
    hcollect hnamed {} {} rfl "video.hpp" (by decide) 3⟩

/-- Includes that name files of the source need not name files of the target: the files have other
names there. -/
theorem not_forall_localIncludes :
    ¬ ∀ (rules : Rules) (api : Api) (out : Outcome),
      (∀ key, (rules.fileRules key).localIncludes.get? = none) →
      (api.files.map (targetName? rules)).Nodup →
      (∀ pair ∈ api.files, ∀ name ∈ pair.2.localIncludes.getD [], name ∈ Keyed.keys api.files) →
      (transformApi rules none api).outcome = .ok out →
      ∀ pair ∈ out.api.files, ∀ name ∈ pair.2.localIncludes.getD [],
        name ∈ Keyed.keys out.api.files := by
  intro hall
  have hthere : ∀ pair ∈ (includeApi "SDL_rect.h").files, ∀ name ∈ pair.2.localIncludes.getD [],
      name ∈ Keyed.keys (includeApi "SDL_rect.h").files := by decide
  have hmem := hall includeRules (includeApi "SDL_rect.h") (includeTarget "SDL_rect.h")
    localIncludes_include (nodup_include "SDL_rect.h") hthere transformApi_includeSource _
    (List.mem_cons_of_mem _ List.mem_cons_self) "SDL_rect.h" List.mem_cons_self
  exact absurd hmem (by decide)

end Transform

end HeaderApi
