import HeaderApi.Proofs.DocRule
import HeaderApi.Proofs.Results

/-!
# Transforming a target again

A second run over the result of a first one gives that result back.  Entries that carry the name of
their source pass unchanged, fixed entries are in their places already, and the doc of a file has
its opening and its commands in the form of the target.
-/

namespace HeaderApi

open Text

/-! ## The doc of a file -/

/-- A word in front of a text is not trimmed. -/
theorem Text.trimEnd_append {word : List Char} (h : ∀ c ∈ word, isBlank c = false)
    (rest : List Char) : trimEnd (word ++ rest) = word ++ trimEnd rest := by
  induction word with
  | nil => rfl
  | cons c word ih =>
    obtain ⟨hc, hword⟩ := List.forall_mem_cons.1 h
    have hrest := ih hword
    rw [trimEnd] at hrest ⊢
    rw [List.cons_append, List.cons_append, dropEndWhile, hrest]
    cases word ++ trimEnd rest with
    | nil => rw [hc]; rfl
    | cons d kept => rfl

/-- A text that begins with a character other than a blank keeps its first word when it is
trimmed. -/
theorem Text.startsWith_trim (c : Char) (word rest : List Char)
    (h : ∀ d ∈ c :: word, isBlank d = false) :
    startsWith (c :: word) (trim (c :: word ++ rest)) = true := by
  have hc : isBlank c = false := h c List.mem_cons_self
  have hstart : trimStart (c :: word ++ rest) = c :: word ++ rest := by
    rw [trimStart, List.cons_append, List.dropWhile_cons_of_neg (by simp [hc])]
  rw [trim, hstart, trimEnd_append h]
  exact startsWith_iff.2 ⟨trimEnd rest, rfl⟩

namespace Transform

/-- The doc of a file begins with its command. -/
theorem startsWith_fileDoc (name doc : String) :
    startsWith "@file".toList (fileDoc name doc) = true := by
  unfold fileDoc
  split
  · rename_i h
    exact h
  · have hblank : ∀ c ∈ "@file".toList, isBlank c = false := by
      intro c hc
      have hall : ("@file".toList.all fun c => !isBlank c) = true := by decide
      exact Bool.not_eq_true' _ ▸ List.all_eq_true.1 hall c hc
    exact startsWith_trim '@' "file".toList
      (' ' :: name.toList ++ "\n\n".toList ++ doc.toList) hblank

/-- The doc of a target file is its own target. -/
theorem atCommands_fileDoc (name name' doc : String) :
    atCommands (fileDoc name' (String.ofList (atCommands (fileDoc name doc)))) =
      atCommands (fileDoc name doc) := by
  have hword : ∀ c ∈ "file".toList, isWord c = true := List.all_eq_true.1 (by decide)
  have hstart : startsWith "@file".toList (atCommands (fileDoc name doc)) = true :=
    startsWith_atCommands hword (startsWith_fileDoc name doc)
  rw [fileDoc, String.toList_ofList (l := atCommands _), if_pos hstart, atCommands_atCommands]

/-! ## Entries -/

section

variable [CharacterNames]

/-- An entry of a target stays as it is. -/
theorem transformEntry_of_made (rules : Rules) (overrides : Bool) {entry : Entry}
    (h : Made entry.toSignature) (s : Session) :
    transformEntry rules overrides entry s = .ok (some entry) s := by
  have hmade : entry.sourceName.isSome = true := h
  unfold transformEntry
  rw [if_pos hmade]
  rfl

/-- Overloads of a target stay as they are. -/
theorem transformOverloads_of_made (rules : Rules) {entries : List Entry}
    (h : ∀ entry ∈ entries, Made entry.toSignature) (s : Session) :
    transformOverloads rules entries s = .ok entries s := by
  induction entries with
  | nil => rfl
  | cons entry entries ih =>
    obtain ⟨hentry, hentries⟩ := List.forall_mem_cons.1 h
    rw [transformOverloads, bind_of_ok (transformEntry_of_made rules false hentry s),
      bind_of_ok (ih hentries)]
    rfl

/-- A table of a target passes unchanged behind results that do not have its keys. -/
theorem transformEntries_of_settled (rules : Rules) {results table : Entries}
    (h : Settled (results ++ table)) (s : Session) :
    transformEntries rules results table s = .ok (results ++ table) s := by
  induction table generalizing results with
  | nil =>
    rw [List.append_nil]
    rfl
  | cons pair table ih =>
    obtain ⟨key, slot⟩ := pair
    -- the slot is put behind the results under the key that it has
    have hslot := h.slots (key, slot) (by simp)
    have hnew := Keyed.not_mem_of_nodup_append h.nodup
    have happend := Keyed.append_cons_eq_insert h.nodup
    rw [happend] at h ⊢
    cases slot with
    | single entry =>
      obtain ⟨rfl, hentry⟩ := hslot
      have hadd : addResult results entry.key entry s =
          .ok (Keyed.insert results entry.key (.single entry)) s := by
        unfold addResult
        rw [Keyed.contains_eq_false_iff.2 hnew]
        rfl
      rw [transformEntries, bind_of_ok (transformEntry_of_made rules true hentry s)]
      dsimp only
      rw [bind_of_ok hadd, ih h]
    | overloads first more =>
      obtain ⟨rfl, hentries⟩ := hslot
      have hadd : addOverloads results (first :: more) =
          Keyed.insert results first.name (.overloads first more) := by
        show Keyed.insertNew results first.name (.overloads first more) = _
        rw [Keyed.insertNew, Keyed.contains_eq_false_iff.2 hnew]
        rfl
      rw [transformEntries, bind_of_ok (transformOverloads_of_made rules hentries s), hadd, ih h]

theorem transformEntries_nil_of_settled (rules : Rules) {table : Entries} (h : Settled table)
    (s : Session) : transformEntries rules [] table s = .ok table s :=
  transformEntries_of_settled rules (show Settled ([] ++ table) from h) s

end

/-! ## Files -/

/-- The target of a file, given the targets of its entries. -/
def targetHeader (file : FileRules) (source : Header) (name : String) (results : Entries) :
    Header where
  name
  entries := (mergeFixed (fixedTable file) results).1
  doc := String.ofList (atCommands (fileDoc name (file.doc.get?.getD source.doc)))
  includes := file.includes.get? <|> source.includes
  localIncludes := file.localIncludes.get? <|> source.localIncludes

/-- A message for each of some keys adds these messages to the log. -/
theorem forM_note (level : Level) (text : String → String) (keys : List String) (s : Session) :
    (keys.forM fun key => note level (text key)) s =
      .ok () { s with log := s.log ++ keys.map fun key => ⟨level, text key⟩ } := by
  induction keys generalizing s with
  | nil =>
    rw [List.map_nil, List.append_nil]
    rfl
  | cons key keys ih =>
    have hnote : note level (text key) s = .ok () { s with log := s.log ++ [⟨level, text key⟩] } :=
      rfl
    rw [List.forM, bind_of_ok hnote, ih, List.map_cons, List.append_assoc]
    rfl

/-- The session in which the entries of a file are transformed. -/
def begun (source : Header) (name : String) (s : Session) : Session :=
  { s with log := s.log ++ [⟨.info, "Transforming " ++ source.name ++ " into " ++ name⟩] }

/-- With the standard doc rules the steps of a file end just as those of its entries do. -/
theorem fileSteps_eq [CharacterNames] {rules : Rules}
    (hdocs : rules.allDocRules = Rules.standardDocRules)
    {source : Header} {name : String} {s s' : Session} {results : Entries}
    (h : transformEntries rules [] source.entries (begun source name s) = .ok results s') :
    ∃ log, fileSteps rules source name s =
      .ok (targetHeader s.file source name results) { s' with log := log } := by
  have hget : (get : Step Session) s = .ok s s := rfl
  have hnote : note .info ("Transforming " ++ source.name ++ " into " ++ name) s =
      .ok () (begun source name s) := rfl
  unfold fileSteps
  rw [bind_of_ok hget]
  dsimp only
  rw [bind_of_ok hnote, bind_of_ok h]
  rw [bind_of_ok (forM_note .debug (fun key => name ++ ": " ++ key ++ " replaced by a fixed entry")
    _ s'), hdocs, Rules.applyAll_standardDocRules]
  exact ⟨_, rfl⟩

/-- The steps of a file give the target of the file, made from a table of the target. -/
theorem fileSteps_ok [CharacterNames] {rules : Rules}
    (hdocs : rules.allDocRules = Rules.standardDocRules)
    {source header : Header} {name : String} {s s' : Session}
    (h : fileSteps rules source name s = .ok header s') :
    ∃ results, Settled results ∧ header = targetHeader s.file source name results ∧
      s'.file.withoutPatches = s.file.withoutPatches := by
  cases hresults : transformEntries rules [] source.entries (begun source name s) with
  | error e between =>
    have hnote : note .info ("Transforming " ++ source.name ++ " into " ++ name) s =
        .ok () (begun source name s) := rfl
    obtain ⟨file, _, ⟨⟩, h⟩ := exists_of_bind h
    obtain ⟨_, between', hbetween, h⟩ := exists_of_bind h
    cases hnote.symm.trans hbetween
    obtain ⟨results, _, heq, -⟩ := exists_of_bind h
    cases hresults.symm.trans heq
  | ok results between =>
    obtain ⟨log, heq⟩ := fileSteps_eq hdocs hresults
    obtain ⟨hsettled, hfile⟩ :=
      keeps_transformEntries rules source.entries settled_nil _ _ _ hresults
    cases heq.symm.trans h
    exact ⟨results, hsettled, rfl, hfile⟩

/-- A file that was made under some rules: their fixed entries, texts and includes stand in it. -/
def MadeUnder (file : FileRules) (header : Header) : Prop :=
  ∃ source default results,
    Settled results ∧ header = targetHeader file source (fileName file default) results

theorem madeUnder_withoutPatches {file : FileRules} {header : Header} :
    MadeUnder file.withoutPatches header ↔ MadeUnder file header := Iff.rfl

/-- The name of a file in its own doc is found again. -/
theorem fileName_fileName (file : FileRules) (default : String) :
    fileName file (fileName file default) = fileName file default := by
  unfold fileName
  cases file.name.get? with
  | none => rfl
  | some name =>
    dsimp only
    split
    · rfl
    · rfl

theorem orElse_orElse {α : Type} (a b : Option α) : (a <|> (a <|> b)) = (a <|> b) := by
  cases a with
  | none => rfl
  | some a => rfl

/-- A header that is made under some rules has a table of a target. -/
theorem MadeUnder.settled {file : FileRules} {header : Header} (h : MadeUnder file header) :
    Settled header.entries := by
  obtain ⟨source, default, results, hresults, rfl⟩ := h
  exact settled_mergeFixed (settled_fixedTable file) hresults

/-- Equal entries, docs and includes make equal headers. -/
theorem targetHeader_congr {file file' : FileRules} {source source' : Header} {name : String}
    {results results' : Entries}
    (hentries : (mergeFixed (fixedTable file) results).1 =
      (mergeFixed (fixedTable file') results').1)
    (hdoc : atCommands (fileDoc name (file.doc.get?.getD source.doc)) =
      atCommands (fileDoc name (file'.doc.get?.getD source'.doc)))
    (hincludes : (file.includes.get? <|> source.includes) =
      (file'.includes.get? <|> source'.includes))
    (hlocal : (file.localIncludes.get? <|> source.localIncludes) =
      (file'.localIncludes.get? <|> source'.localIncludes)) :
    targetHeader file source name results = targetHeader file' source' name results' := by
  unfold targetHeader
  rw [hentries, hdoc, hincludes, hlocal]

/-- A file is its own target under the rules that made it. -/
theorem MadeUnder.targetHeader_self {file : FileRules} {header : Header}
    (h : MadeUnder file header) :
    targetHeader file header (fileName file header.name) header.entries = header := by
  obtain ⟨source, default, results, hresults, rfl⟩ := h
  have hname : fileName file (targetHeader file source (fileName file default) results).name =
      fileName file default := fileName_fileName file default
  rw [hname]
  refine targetHeader_congr ?_ ?_ ?_ ?_
  · exact mergeFixed_mergeFixed (settled_fixedTable file) hresults
  · cases hdoc : file.doc.get? with
    | none =>
      -- the second run starts from the doc that the first one wrote
      rw [Option.getD_none, Option.getD_none, targetHeader, hdoc]
      exact atCommands_fileDoc _ _ source.doc
    | some doc => rfl
  · exact orElse_orElse _ _
  · exact orElse_orElse _ _

/-- A file is its own target without rules. -/
theorem MadeUnder.targetHeader_empty {file : FileRules} {header : Header}
    (h : MadeUnder file header) : targetHeader {} header header.name header.entries = header := by
  have hentries := mergeFixed_nil_of_settled h.settled
  obtain ⟨source, default, results, hresults, rfl⟩ := h
  refine targetHeader_congr ?_ ?_ ?_ ?_
  · exact hentries
  · exact atCommands_fileDoc _ _ (file.doc.get?.getD source.doc)
  · rfl
  · rfl

/-! ## Rules by file -/

section

variable [CharacterNames]

/-- The key of the rules for a source file and the name of its target. -/
def placed? (rules : Rules) (source : String) : Option (Option String × String) :=
  match rules.targetFileName source with
  | .error _ => none
  | .ok default =>
    let key := rules.fileKey? source default
    some (key, fileName (rules.fileRules key) default)

/-- The keys of the rules under which targets of a name are made, in the order of the sources. -/
def makers (rules : Rules) (files : Keyed Header) (name : String) : List (Option String) :=
  files.filterMap fun pair =>
    match placed? rules pair.2.name with
    | some (key, target) => if target = name then some key else none
    | none => none

/-- Where a file is placed does not depend on the patches. -/
theorem placed?_withoutPatches (rules : Rules) (source : String) :
    placed? rules.withoutPatches source = placed? rules source := by
  unfold placed?
  rw [Rules.withoutPatches_targetFileName]
  cases rules.targetFileName source with
  | error e => rfl
  | ok default =>
    dsimp only
    rw [Rules.withoutPatches_fileKey?, Rules.withoutPatches_fileRules]
    rfl

/-- A file makes its target before the files behind it do. -/
theorem makers_cons {rules : Rules} {pair : String × Header} {key : Option String}
    {target : String} (h : placed? rules pair.2.name = some (key, target))
    (files : Keyed Header) (name : String) :
    makers rules (pair :: files) name =
      if target = name then key :: makers rules files name else makers rules files name := by
  unfold makers
  by_cases heq : target = name
  · rw [if_pos heq, List.filterMap_cons_some]
    rw [h]
    exact if_pos heq
  · rw [if_neg heq, List.filterMap_cons_none]
    rw [h]
    exact if_neg heq

/-! ## One file -/

/-- One file of a run: it is made under the rules for it, and the rules keep all but patches. -/
theorem transformFile_ok {source header : Header} {run run' : Run}
    (hdocs : run.rules.allDocRules = Rules.standardDocRules)
    (h : transformFile source run = .ok header run') :
    ∃ key, placed? run.rules source.name = some (key, header.name) ∧
      MadeUnder (run.rules.fileRules key) header ∧
      run'.rules.withoutPatches = run.rules.withoutPatches := by
  obtain ⟨_, _, ⟨⟩, h⟩ := exists_of_bind h
  -- Without a name for the file the run fails, so the key of its rules is known here.
  cases hdefault : run.rules.targetFileName source.name with
  | error e =>
    dsimp only at h
    rw [hdefault] at h
    cases h
  | ok default =>
    dsimp only at h
    rw [hdefault] at h
    dsimp only [withFile] at h
    split at h
    · rename_i header' s' hsteps
      cases h
      obtain ⟨results, hsettled, rfl, hfile⟩ := fileSteps_ok hdocs hsteps
      refine ⟨run.rules.fileKey? source.name default, ?_, ?_, ?_⟩
      · rw [placed?, hdefault]
        rfl
      · exact ⟨source, default, results, hsettled, rfl⟩
      · exact Rules.withoutPatches_setFileRules (fun key => Rules.contains_of_fileKey?) hfile
    · cases h

/-- A file that a run takes as it is, whatever is known about types. -/
def Steady (rules : Rules) (header : Header) : Prop :=
  ∀ run : Run, run.rules = rules →
    ∃ log, transformFile header run = .ok header { run with log := log }

/-- A file stays as it is where it keeps its name and has no rules or those that made it. -/
theorem MadeUnder.steady {rules : Rules} (hdocs : rules.allDocRules = Rules.standardDocRules)
    {file : FileRules} {header : Header} (h : MadeUnder file header)
    (hname : rules.targetFileName header.name = .ok header.name)
    (hkey : rules.fileKey? header.name header.name = none ∨
      (rules.fileRules (rules.fileKey? header.name header.name)).withoutPatches =
        file.withoutPatches) :
    Steady rules header := by
  rintro run rfl
  generalize hk : run.rules.fileKey? header.name header.name = key at hkey
  have htarget : targetHeader (run.rules.fileRules key) header
      (fileName (run.rules.fileRules key) header.name) header.entries = header := by
    rcases hkey with rfl | hfile
    · exact h.targetHeader_empty
    · rw [← madeUnder_withoutPatches, ← hfile, madeUnder_withoutPatches] at h
      exact h.targetHeader_self
  generalize hn : fileName (run.rules.fileRules key) header.name = name at htarget
  obtain ⟨log, hsteps⟩ := fileSteps_eq hdocs (transformEntries_nil_of_settled run.rules h.settled
    (begun header name ⟨run.context, run.rules.fileRules key, run.log⟩))
  have hget : (get : EStateM Error Run Run) run = .ok run run := rfl
  refine ⟨log, ?_⟩
  unfold transformFile
  rw [bind_of_ok hget]
  dsimp only
  rw [hname]
  dsimp only
  rw [hk, hn, withFile, hsteps]
  dsimp only [begun]
  rw [htarget, Rules.setFileRules_fileRules fun k hsome =>
    Rules.contains_of_fileKey? (hk.trans hsome)]

/-! ## All files -/

/-- A file of a target: it stands under its name, made under the rules of the last source that
is placed there. -/
def MadeFrom (rules : Rules) (files : Keyed Header) (pair : String × Header) : Prop :=
  pair.2.name = pair.1 ∧
    ∃ key, (makers rules files pair.1).getLast? = some key ∧
      MadeUnder (rules.fileRules key) pair.2

omit [CharacterNames] in
theorem madeUnder_congr {rules rules' : Rules} (h : rules.withoutPatches = rules'.withoutPatches)
    {key : Option String} {header : Header} (hmade : MadeUnder (rules.fileRules key) header) :
    MadeUnder (rules'.fileRules key) header := by
  rw [← madeUnder_withoutPatches, ← Rules.withoutPatches_fileRules] at hmade ⊢
  rw [← h]
  exact hmade

/-- **A run over files.**  Every file of the result was there before and is made by none of the
sources, or comes from the last source that makes it. -/
theorem transformFiles_ok {rules : Rules} (hdocs : rules.allDocRules = Rules.standardDocRules)
    {files results out : Keyed Header} {run run' : Run}
    (hrun : run.rules.withoutPatches = rules.withoutPatches)
    (hresults : (Keyed.keys results).Nodup)
    (h : transformFiles results files run = .ok out run') :
    run'.rules.withoutPatches = rules.withoutPatches ∧ (Keyed.keys out).Nodup ∧
      ∀ pair ∈ out,
        pair ∈ results ∧ makers rules files pair.1 = [] ∨ MadeFrom rules files pair := by
  induction files generalizing results run with
  | nil =>
    cases h
    exact ⟨hrun, hresults, fun pair hpair => Or.inl ⟨hpair, rfl⟩⟩
  | cons file files ih =>
    obtain ⟨header, between, hheader, h⟩ := exists_of_bind h
    have hdocs' : run.rules.allDocRules = Rules.standardDocRules := by
      have hsame := congrArg Rules.allDocRules hrun
      exact hsame.trans hdocs
    obtain ⟨key, hplaced, hmade, hbetween⟩ := transformFile_ok hdocs' hheader
    rw [← placed?_withoutPatches, hrun, placed?_withoutPatches] at hplaced
    obtain ⟨hrules, hnodup, hpairs⟩ :=
      ih (hbetween.trans hrun) (Keyed.nodup_keys_insert hresults) h
    refine ⟨hrules, hnodup, fun pair hpair => ?_⟩
    rw [makers_cons hplaced]
    rcases hpairs pair hpair with ⟨hold, hnone⟩ | ⟨hname, last, hlast, hunder⟩
    -- no later source makes the file: it is the one just made, or an older one
    · rcases Keyed.mem_insert_of_nodup hresults hold with rfl | ⟨hmem, hne⟩
      · refine Or.inr ⟨rfl, key, ?_, madeUnder_congr hrun hmade⟩
        rw [makers_cons hplaced, if_pos rfl, hnone]
        rfl
      · rw [if_neg (Ne.symm hne)]
        exact Or.inl ⟨hmem, hnone⟩
    · refine Or.inr ⟨hname, last, ?_, hunder⟩
      rw [makers_cons hplaced]
      split
      · rw [List.getLast?_cons, hlast]
        rfl
      · exact hlast

/-- Files that a run takes as they are, behind others of different names. -/
theorem transformFiles_of_steady (results : Keyed Header) {files : Keyed Header} (run : Run)
    (hfiles : ∀ pair ∈ files, pair.2.name = pair.1 ∧ Steady run.rules pair.2)
    (hnodup : (Keyed.keys (results ++ files)).Nodup) :
    ∃ log, transformFiles results files run = .ok (results ++ files) { run with log := log } := by
  induction files generalizing results run with
  | nil =>
    rw [List.append_nil]
    exact ⟨run.log, rfl⟩
  | cons pair files ih =>
    obtain ⟨name, header⟩ := pair
    obtain ⟨⟨hname, hsteady⟩, hrest⟩ := List.forall_mem_cons.1 hfiles
    obtain ⟨log, hheader⟩ := hsteady run rfl
    dsimp only at hname hheader
    have happend := Keyed.append_cons_eq_insert hnodup
    rw [happend] at hnodup ⊢
    rw [transformFiles, bind_of_ok hheader, hname]
    obtain ⟨log', hlater⟩ := ih _ { run with log := log } hrest hnodup
    exact ⟨log', hlater⟩

/-- An interface of steady headers is transformed into itself, without a message. -/
theorem transformApi_of_steady {rules : Rules} {files : Keyed Header}
    (hfiles : ∀ pair ∈ files, pair.2.name = pair.1 ∧ Steady rules pair.2)
    (hnodup : (Keyed.keys files).Nodup) :
    (transformApi rules none ⟨files⟩).outcome = .ok ⟨⟨files⟩, [], rules⟩ := by
  have hall : files.filter (fun pair => isSelected none pair.1) = files :=
    List.filter_eq_self.2 fun _ _ => rfl
  obtain ⟨log, h⟩ := transformFiles_of_steady [] ⟨.ofRules rules, rules, []⟩ hfiles hnodup
  unfold transformApi
  dsimp only
  rw [hall, h]
  rfl

/-- **Transforming a target gives the target.**  Let every file of the target keep its name and be
looked up under no rules, or under those by which its last source was transformed.  A second run
gives the same files and no warnings, both with the rules as they were and with the rules that the
first run left. -/
theorem transformApi_target {rules : Rules} {api : Api} {out : Outcome}
    (hdocs : rules.allDocRules = Rules.standardDocRules)
    (h : (transformApi rules none api).outcome = .ok out)
    (hfiles : ∀ name ∈ Keyed.keys out.api.files, rules.targetFileName name = .ok name ∧
      (rules.fileKey? name name = none ∨
        (makers rules api.files name).getLast? = some (rules.fileKey? name name))) :
    (transformApi rules none out.api).outcome = .ok ⟨out.api, [], rules⟩ ∧
      (transformApi out.rules none out.api).outcome = .ok ⟨out.api, [], out.rules⟩ := by
  have hall : api.files.filter (fun pair => isSelected none pair.1) = api.files :=
    List.filter_eq_self.2 fun _ _ => rfl
  unfold transformApi at h
  dsimp only at h
  rw [hall] at h
  split at h
  · cases h
  · rename_i files run hrun
    cases h
    have hempty : (Keyed.keys ([] : Keyed Header)).Nodup := List.nodup_nil
    obtain ⟨hrules, hnodup, hpairs⟩ := transformFiles_ok hdocs rfl hempty hrun
    -- every file of the target is steady under any rules that differ in patches only
    have hsteady : ∀ rules', rules'.withoutPatches = rules.withoutPatches →
        ∀ pair ∈ files, pair.2.name = pair.1 ∧ Steady rules' pair.2 := by
      intro rules' hsame pair hpair
      rcases hpairs pair hpair with ⟨hnil, -⟩ | ⟨hname, key, hlast, hmade⟩
      · cases hnil
      · obtain ⟨htarget, hkey⟩ := hfiles pair.1 (Keyed.mem_keys hpair)
        refine ⟨hname, (madeUnder_congr hsame.symm hmade).steady ?_ ?_ ?_⟩
        · exact (congrArg Rules.allDocRules hsame).trans hdocs
        · rw [hname, ← Rules.withoutPatches_targetFileName, hsame,
            Rules.withoutPatches_targetFileName]
          exact htarget
        · rw [hname, ← Rules.withoutPatches_fileKey?, hsame, Rules.withoutPatches_fileKey?]
          rcases hkey with hnone | hsome
          · exact Or.inl hnone
          · rw [hlast] at hsome
            rw [← Option.some.inj hsome]
            exact Or.inr rfl
    exact ⟨transformApi_of_steady (hsteady rules rfl) hnodup,
      transformApi_of_steady (hsteady run.rules hrules) hnodup⟩

end

/-- Rules for one target file: a patch, a resource, a fixed entry and the includes. -/
def videoFileRules : FileRules where
  includeAt := some ⟨some [⟨⟨"version", .var, none, .given "int", .unset, .unset, .unset, .unset,
    .unset, .unset, .given "3", .unset, .unset, .unset, .unset⟩, .unset⟩]⟩
  patches := some [("Quit", { doc := .given "Ends \\all." })]
  types := some [("Window", .resource)]
  includes := .given ["memory"]

/-- Rules that drop an opening and know one file. -/
def videoRules : Rules where
  prefixes := some ["SDL_"]
  files := some [("video.hpp", videoFileRules)]

/-- A header with an alias and a function. -/
def videoApi : Api where
  files := [("SDL_video.h", {
    name := "SDL_video.h"
    doc := "\\brief Windows."
    entries := [
      ("SDL_Window", .single { name := "SDL_Window", kind := .typeAlias, type := some "void *" }),
      ("SDL_Quit", .single { name := "SDL_Quit", kind := .function, type := some "void" })] })]

/-- The target of the header, and the rules with the name that the patch was given. -/
def videoTarget : Outcome where
  api := { files := [("video.hpp", {
    name := "video.hpp"
    doc := "@file video.hpp\n\n@brief Windows."
    includes := some ["memory"]
    entries := [
      ("version", .single {
        name := "version", kind := .var, type := some "int", value := some "3"
        sourceName := some "version" }),
      ("WindowBase", .single {
        name := "WindowBase", kind := .struct, type := some "T"
        parameters := some [.raw "using T::T;"]
        template := some [.named "T" "class" none]
        sourceName := some "SDL_Window" }),
      ("Quit", .single {
        name := "Quit", kind := .function, doc := "Ends @all.", type := some "void"
        sourceName := some "SDL_Quit" })] })] }
  warnings := []
  rules := { videoRules with files := some [("video.hpp", { videoFileRules with
    patches := some [("Quit", { name := .given "Quit", doc := .given "Ends \\all." })] })] }

/-- A target with a doc, an alias and a fixed entry is transformed into itself, under the rules
before the run and behind it. -/
theorem transformApi_target_video :
    (transformApi videoRules none videoApi).outcome = .ok videoTarget ∧
      (transformApi videoRules none videoTarget.api).outcome =
        .ok ⟨videoTarget.api, [], videoRules⟩ ∧
      (transformApi videoTarget.rules none videoTarget.api).outcome =
        .ok ⟨videoTarget.api, [], videoTarget.rules⟩ := by
  have hfirst : (transformApi videoRules none videoApi).outcome = .ok videoTarget := rfl
  refine ⟨hfirst, transformApi_target rfl hfirst fun name hname => ?_⟩
  rw [List.mem_singleton.1 hname]
  exact ⟨rfl, Or.inr rfl⟩

end Transform

end HeaderApi
