import HeaderApi.Proofs.PatchNames

/-!
# Selected files

All files of a run share one set of type maps, so a file that is left out may change the types of
another.  It changes no more than that: the target of a file depends on its rules and on what the
maps hold for the types that its variables and its functions have.  When a run over some files and a
run over all files come to a file with the same rules for it and with maps that agree on these
types, both give it the same target.
-/

namespace HeaderApi

namespace Transform

/-! ## Types of a file -/

/-- The type of the result of a function. -/
def resultTypes (entry : Signature) : List String :=
  if entry.kind = .function then entry.type.toList else []

/-- The types of the parameters of a function. -/
def parameterTypes (entry : Signature) : List String :=
  if entry.kind = .function then
    (entry.parameters.getD []).filterMap fun
      | .named _ type _ => some type
      | .raw _ => none
  else []

/-- The type of a variable. -/
def variableTypes (entry : Signature) : List String :=
  if entry.kind = .var then entry.type.toList else []

/-- Type maps that hold the same for the types of some entries. -/
structure SameTypes (entries : List Entry) (c c' : Context) : Prop where
  types : ∀ entry ∈ entries,
    ∀ type ∈ variableTypes entry.toSignature ++ resultTypes entry.toSignature ++
      parameterTypes entry.toSignature,
      Keyed.find? c'.typeMap type = Keyed.find? c.typeMap type
  paramTypes : ∀ entry ∈ entries, ∀ type ∈ parameterTypes entry.toSignature,
    Keyed.find? c'.paramTypeMap type = Keyed.find? c.paramTypeMap type
  returnTypes : ∀ entry ∈ entries, ∀ type ∈ resultTypes entry.toSignature,
    Keyed.find? c'.returnTypeMap type = Keyed.find? c.returnTypeMap type

variable {entries : List Entry} {c c' : Context}

/-- An alias is registered in both contexts. -/
theorem SameTypes.registerAlias (h : SameTypes entries c c') (type name : String) :
    SameTypes entries (c.registerAlias type name) (c'.registerAlias type name) :=
  ⟨fun entry hentry used hused => Keyed.find?_insertAll_congr (h.types entry hentry used hused) _,
    h.paramTypes, h.returnTypes⟩

/-- A resource is registered in both contexts. -/
theorem SameTypes.registerResource (h : SameTypes entries c c') (type name : String) :
    SameTypes entries (c.registerResource type name) (c'.registerResource type name) :=
  ⟨h.types,
    fun entry hentry used hused =>
      Keyed.find?_insertAll_congr (h.paramTypes entry hentry used hused) _,
    fun entry hentry used hused =>
      Keyed.find?_insertAll_congr (h.returnTypes entry hentry used hused) _⟩

theorem SameTypes.warn (h : SameTypes entries c c') (m : Mismatch) :
    SameTypes entries (c.warn m) (c'.warn m) :=
  ⟨h.types, h.paramTypes, h.returnTypes⟩

/-- The type of a result is mapped alike. -/
theorem SameTypes.mapReturnType (h : SameTypes entries c c') {entry : Entry}
    (hentry : entry ∈ entries) {type : String} (htype : type ∈ resultTypes entry.toSignature) :
    c'.mapReturnType type = c.mapReturnType type := by
  unfold Context.mapReturnType Context.mapType
  have hused := List.mem_append_left (parameterTypes entry.toSignature)
    (List.mem_append_right (variableTypes entry.toSignature) htype)
  rw [h.returnTypes entry hentry type htype, h.types entry hentry type hused]

/-- The type of a parameter is mapped alike. -/
theorem SameTypes.mapParamType (h : SameTypes entries c c') {entry : Entry}
    (hentry : entry ∈ entries) {type : String} (htype : type ∈ parameterTypes entry.toSignature) :
    c'.mapParamType type = c.mapParamType type := by
  unfold Context.mapParamType Context.mapType
  rw [h.paramTypes entry hentry type htype,
    h.types entry hentry type (List.mem_append_right _ htype)]

/-- The type of a variable is mapped alike. -/
theorem SameTypes.mapType (h : SameTypes entries c c') {entry : Entry}
    (hentry : entry ∈ entries) {type : String} (htype : type ∈ variableTypes entry.toSignature) :
    c'.mapType type = c.mapType type := by
  unfold Context.mapType
  rw [h.types entry hentry type
    (List.mem_append_left _ (List.mem_append_left _ htype))]

/-- The parameters of a function are mapped alike. -/
theorem SameTypes.mapParameters (h : SameTypes entries c c') {entry : Entry}
    (hentry : entry ∈ entries) (hkind : entry.kind = .function) {parameters : List Parameter}
    (hparameters : entry.parameters = some parameters) :
    mapParameters c' parameters = mapParameters c parameters := by
  refine List.map_congr_left fun parameter hparameter => ?_
  cases parameter with
  | raw text => rfl
  | named name type default =>
    dsimp only
    rw [h.mapParamType hentry]
    unfold parameterTypes
    rw [if_pos hkind, hparameters]
    exact List.mem_filterMap.2 ⟨_, hparameter, rfl⟩

/-- The types of an entry have the same targets in both maps. -/
theorem SameTypes.plainSignature (h : SameTypes entries c c') {entry : Entry}
    (hentry : entry ∈ entries) (name : String) :
    plainSignature c' entry.toSignature name = plainSignature c entry.toSignature name := by
  unfold Transform.plainSignature
  cases hkind : entry.kind with
  | function =>
    have htype : entry.type.map c'.mapReturnType = entry.type.map c.mapReturnType := by
      refine Option.map_congr fun type htype => h.mapReturnType hentry ?_
      rw [resultTypes, if_pos hkind]
      exact Option.mem_toList.2 htype
    have hparameters : entry.parameters.map (Transform.mapParameters c') =
        entry.parameters.map (Transform.mapParameters c) :=
      Option.map_congr fun parameters hparameters => h.mapParameters hentry hkind hparameters
    dsimp only
    rw [htype, hparameters]
  | var =>
    have htype : entry.type.map c'.mapType = entry.type.map c.mapType := by
      refine Option.map_congr fun type htype => h.mapType hentry ?_
      rw [variableTypes, if_pos hkind]
      exact Option.mem_toList.2 htype
    dsimp only
    rw [htype]
  | _ => rfl

/-! ## Steps in two sessions -/

/-- Sessions with the same rules, and with maps that hold the same for the types of some entries. -/
structure Alike (entries : List Entry) (s s' : Session) : Prop where
  file : s'.file = s.file
  types : SameTypes entries s.context s'.context

/-- A step that gives the same value in sessions that are alike, and leaves them alike. -/
def Mirrors {α : Type} (entries : List Entry) (x : Step α) : Prop :=
  ∀ s s' a t, Alike entries s s' → x s = .ok a t → ∃ t', x s' = .ok a t' ∧ Alike entries t t'

section Mirrors

variable {α β : Type}

theorem Mirrors.pure (a : α) : Mirrors entries (Pure.pure a : Step α) := by
  rintro s s' _ _ h ⟨⟩
  exact ⟨s', rfl, h⟩

/-- A step behind another is the same in both sessions when it is for every value. -/
theorem Mirrors.bind {x : Step α} {f : α → Step β} (hx : Mirrors entries x)
    (hf : ∀ a, Mirrors entries (f a)) : Mirrors entries (x >>= f) := by
  intro s s' b t h hrun
  obtain ⟨a, between, ha, hb⟩ := exists_of_bind hrun
  obtain ⟨between', ha', hbetween⟩ := hx s s' a between h ha
  obtain ⟨t', hb', ht⟩ := hf a between between' b t hbetween hb
  refine ⟨t', ?_, ht⟩
  rw [bind_of_ok ha']
  exact hb'

theorem mirrors_throw (e : Error) : Mirrors entries (throw e : Step α) := by
  rintro s s' a t - ⟨⟩

theorem mirrors_modify {f : Session → Session}
    (hf : ∀ s s', Alike entries s s' → Alike entries (f s) (f s')) :
    Mirrors entries (modify f : Step Unit) := by
  rintro s s' _ _ h ⟨⟩
  exact ⟨f s', rfl, hf s s' h⟩

theorem mirrors_note (level : Level) (text : String) : Mirrors entries (note level text) :=
  mirrors_modify fun _ _ h => ⟨h.file, h.types⟩

theorem mirrors_modifyContext {f : Context → Context}
    (hf : ∀ c c', SameTypes entries c c' → SameTypes entries (f c) (f c')) :
    Mirrors entries (modifyContext f) :=
  mirrors_modify fun _ _ h => ⟨h.file, hf _ _ h.types⟩

/-- A step that looks at no more of the session than what is alike. -/
theorem mirrors_get_bind {f : Session → Step β} (hf : ∀ s, Mirrors entries (f s))
    (hsame : ∀ s s', Alike entries s s' → f s' = f s) : Mirrors entries (get >>= f) := by
  intro s s' b t h hrun
  have hget : ∀ s, (get >>= f) s = f s s := fun _ => rfl
  rw [hget] at hrun ⊢
  rw [hsame s s' h]
  exact hf s s s' b t h hrun

end Mirrors

/-! ## Steps of a file -/

theorem mirrors_plainSignature {entry : Entry} (hentry : entry ∈ entries) (name : String) :
    Mirrors entries (do
      return (plainSignature (← get).context entry.toSignature name, false)) := by
  refine mirrors_get_bind (fun s => .pure _) fun s s' h => ?_
  rw [h.types.plainSignature hentry]

/-- A patch is applied in both sessions. -/
theorem mirrors_applyPatch (key : String) (signature : Signature) :
    Mirrors entries (applyPatch key signature) := by
  refine mirrors_get_bind (fun s => ?_) fun s s' h => ?_
  · split
    · exact .pure _
    · rename_i patch _
      refine (mirrors_modify fun s s' h => ?_).bind fun _ => ?_
      · refine ⟨?_, h.types⟩
        rw [h.file]
      · split
        · exact .pure _
        · exact mirrors_throw _
  · dsimp only
    rw [h.file]

/-- That a step is the same in both sessions passes from its parts to the whole. -/
theorem compositional_mirrors (entries : List Entry) :
    Compositional (Mirrors entries) fun s => ∃ entry ∈ entries, entry.toSignature = s where
  pure := .pure
  bind := .bind
  throw := mirrors_throw
  note := mirrors_note
  registerAlias _ _ := mirrors_modifyContext fun _ _ h => h.registerAlias _ _
  registerResource _ _ := mirrors_modifyContext fun _ _ h => h.registerResource _ _
  warn _ := mirrors_modifyContext fun _ _ h => h.warn _
  applyPatch := mirrors_applyPatch
  get_bind hf hsame := mirrors_get_bind hf fun s s' h => hsame s s' (by rw [h.file])
  plainSignature := by
    rintro _ ⟨entry, hentry, rfl⟩ name
    exact mirrors_plainSignature hentry name

/-- **One file.**  A file has the same target when the maps hold the same for its types. -/
theorem mirrors_fileSteps [CharacterNames] (rules : Rules) (source : Header) (name : String) :
    Mirrors source.entries.toList (fileSteps rules source name) :=
  (compositional_mirrors source.entries.toList).fileSteps rules
    (fun entry hentry => ⟨entry, hentry, rfl⟩) name

/-! ## Runs -/

/-- Runs that know the same rules, patches apart, and come to a file with the same rules for it and
with maps that hold the same for its types. -/
structure ComeAlike (source : Header) (key : Option String) (run run' : Run) : Prop where
  others : run'.rules.withoutPatches = run.rules.withoutPatches
  rules : run'.rules.fileRules key = run.rules.fileRules key
  types : SameTypes source.entries.toList run.context run'.context

section

variable [CharacterNames]

/-- Two runs that come alike to a file give it the same target. -/
theorem ComeAlike.transformFile {source header : Header} {key : Option String} {name : String}
    {run run' after : Run} (h : ComeAlike source key run run')
    (hplaced : placed? run.rules source.name = some (key, name))
    (hrun : transformFile source run = .ok header after) :
    ∃ after', transformFile source run' = .ok header after' := by
  obtain ⟨key', name', s, hplaced', hsteps, -⟩ := transformFile_cases hrun
  cases hplaced.symm.trans hplaced'
  have hopened : Alike source.entries.toList (opened run key) (opened run' key) :=
    ⟨h.rules, h.types⟩
  -- Of the rules of the run the steps use only what no patch changes.
  obtain ⟨s', hsteps', -⟩ := mirrors_fileSteps run.rules source name _ _ _ _ hopened hsteps
  rw [← fileSteps_congr h.others] at hsteps'
  rw [← placed?_congr h.others] at hplaced
  exact ⟨_, transformFile_of_steps hplaced hsteps'⟩

variable {rules : Rules}

/-- A run keeps the rules, patches apart. -/
theorem withoutPatches_of_transformFiles {results files out : Keyed Header} {run run' : Run}
    (h : transformFiles results files run = .ok out run') :
    run'.rules.withoutPatches = run.rules.withoutPatches :=
  ((RulesAfter.start run.rules).transformFiles h).others

/-- A target has the name under which its source is placed. -/
theorem name_of_transformFile {source header : Header} {run after : Run}
    (h : transformFile source run = .ok header after) :
    ∃ key, placed? run.rules source.name = some (key, header.name) := by
  obtain ⟨key, name, s, hplaced, hsteps, -⟩ := transformFile_cases h
  obtain ⟨results, between, doc, -, -, rfl, -, -⟩ := fileSteps_cases hsteps
  exact ⟨key, hplaced⟩

/-- No two targets have one key. -/
theorem nodup_keys_transformFiles {results files out : Keyed Header} {run run' : Run}
    (hresults : (Keyed.keys results).Nodup)
    (hrun : transformFiles results files run = .ok out run') : (Keyed.keys out).Nodup := by
  induction files generalizing results run with
  | nil =>
    cases hrun
    exact hresults
  | cons pair files ih =>
    obtain ⟨header, between, -, hrun⟩ := exists_of_bind hrun
    exact ih (Keyed.nodup_keys_insert hresults) hrun

/-- The run over a file changes nothing of the rules but patches. -/
theorem withoutPatches_of_transformFile {source header : Header} {run after : Run}
    (h : transformFile source run = .ok header after) :
    after.rules.withoutPatches = run.rules.withoutPatches := by
  obtain ⟨key, hplaced⟩ := name_of_transformFile h
  exact ((RulesAfter.start run.rules).transformFile hplaced h).others

/-- The name of the target of a file. -/
def targetName? (rules : Rules) (pair : String × Header) : Option String :=
  (placed? rules pair.2.name).map Prod.snd

theorem targetName?_congr {rules' : Rules} (h : rules'.withoutPatches = rules.withoutPatches) :
    targetName? rules' = targetName? rules := by
  funext pair
  unfold targetName?
  rw [placed?_congr h]

/-- The target of a file has its target name. -/
theorem targetName?_of_transformFile {file : String × Header} {header : Header} {run after : Run}
    (h : transformFile file.2 run = .ok header after) :
    targetName? run.rules file = some header.name := by
  obtain ⟨key, hplaced⟩ := name_of_transformFile h
  rw [targetName?, hplaced]
  rfl

/-- Every target of a run is the target of some file. -/
theorem exists_of_mem_transformFiles {results files out : Keyed Header} {run run' : Run}
    (h : transformFiles results files run = .ok out run') {pair : String × Header}
    (hpair : pair ∈ out) :
    pair ∈ results ∨ ∃ file ∈ files, targetName? run.rules file = some pair.1 := by
  induction files generalizing results run with
  | nil =>
    cases h
    exact Or.inl hpair
  | cons file files ih =>
    obtain ⟨header, between, hheader, h⟩ := exists_of_bind h
    rcases ih h with hmem | ⟨other, hother, hname⟩
    · rcases Keyed.mem_insert hmem with rfl | hold
      · exact Or.inr ⟨file, List.mem_cons_self, targetName?_of_transformFile hheader⟩
      · exact Or.inl hold
    · rw [targetName?_congr (withoutPatches_of_transformFile hheader)] at hname
      exact Or.inr ⟨other, List.mem_cons_of_mem _ hother, hname⟩

/-- Files with other targets leave the target of a name as it is. -/
theorem find?_transformFiles {results files out : Keyed Header} {run run' : Run}
    (hrun : transformFiles results files run = .ok out run') {name : String}
    (hothers : some name ∉ files.map (targetName? run.rules)) :
    Keyed.find? out name = Keyed.find? results name := by
  induction files generalizing results run with
  | nil =>
    cases hrun
    rfl
  | cons file files ih =>
    obtain ⟨header, between, hheader, hrun⟩ := exists_of_bind hrun
    have hsame := targetName?_congr (withoutPatches_of_transformFile hheader)
    rw [List.map_cons, List.mem_cons, not_or, targetName?_of_transformFile hheader, ← hsame]
      at hothers
    rw [ih hrun hothers.2, Keyed.find?_insert, if_neg]
    rintro rfl
    exact hothers.1 rfl

/-- A run over files with different targets gives each file the target that it has where the run
comes to it. -/
theorem transformFiles_of_split {earlier later out : Keyed Header} {file : String × Header}
    {run run' : Run} (hnodup : ((earlier ++ file :: later).map (targetName? run.rules)).Nodup)
    (hrun : transformFiles [] (earlier ++ file :: later) run = .ok out run') :
    ∃ headers between header after, transformFiles [] earlier run = .ok headers between ∧
      transformFile file.2 between = .ok header after ∧
      Keyed.find? out header.name = some header := by
  rw [transformFiles_append] at hrun
  obtain ⟨headers, between, hearlier, hrun⟩ := exists_of_bind hrun
  obtain ⟨header, after, hheader, hrun⟩ := exists_of_bind hrun
  refine ⟨headers, between, header, after, hearlier, hheader, ?_⟩
  have hbetween := targetName?_congr (withoutPatches_of_transformFiles hearlier)
  have hafter := targetName?_congr (withoutPatches_of_transformFile hheader)
  rw [List.map_append, List.map_cons, ← hbetween, targetName?_of_transformFile hheader, ← hafter]
    at hnodup
  -- The files behind have other targets, so none of them replaces this one.
  rw [find?_transformFiles hrun, Keyed.find?_insert, if_pos rfl]
  exact (List.nodup_cons.1 (List.nodup_append.1 hnodup).2.1).1

/-! ## Selected files -/

/-- A selected file with the files before and behind it, the key of the rules for it, and the name
of its target. -/
structure SelectedFile (rules : Rules) (names : Option (List String)) (files : Keyed Header) where
  earlier : Keyed Header
  fileKey : String
  source : Header
  later : Keyed Header
  files_eq : files = earlier ++ (fileKey, source) :: later
  selected : isSelected names fileKey = true
  key : Option String
  name : String
  placed : placed? rules source.name = some (key, name)

/-- The selected files are those before the file, the file and those behind it. -/
theorem SelectedFile.filter_eq {names : Option (List String)} {files : Keyed Header}
    (file : SelectedFile rules names files) :
    (files.filter fun pair => isSelected names pair.1) =
      (file.earlier.filter fun pair => isSelected names pair.1) ++
        (file.fileKey, file.source) :: file.later.filter fun pair => isSelected names pair.1 := by
  refine (congrArg (List.filter fun pair => isSelected names pair.1) file.files_eq).trans ?_
  rw [List.filter_append, List.filter_cons_of_pos (by exact file.selected)]

/-- The run over all files and the run over the selected ones come alike to a selected file: both
know the same rules for it, and their maps hold the same for its types. -/
structure SelectedFile.ComesAlike {names : Option (List String)} {files : Keyed Header}
    (file : SelectedFile rules names files) : Prop where
  runs : ∃ headers headers' run run',
    transformFiles [] file.earlier ⟨.ofRules rules, rules, []⟩ = .ok headers run ∧
    transformFiles [] (file.earlier.filter fun pair => isSelected names pair.1)
      ⟨.ofRules rules, rules, []⟩ = .ok headers' run' ∧
    run'.rules.fileRules file.key = run.rules.fileRules file.key ∧
    SameTypes file.source.entries.toList run.context run'.context

/-- Files that are left out behind a selected file change nothing for it. -/
theorem SelectedFile.comesAlike_of_forall_selected {names : Option (List String)} {api : Api}
    (file : SelectedFile rules names api.files)
    (hearlier : ∀ pair ∈ file.earlier, isSelected names pair.1 = true) {out : Outcome}
    (hrun : (transformApi rules names api).outcome = .ok out) : file.ComesAlike := by
  obtain ⟨_, _, hrun, -⟩ := transformApi_cases hrun
  have hall : (file.earlier.filter fun pair => isSelected names pair.1) = file.earlier :=
    List.filter_eq_self.2 hearlier
  rw [file.filter_eq, hall, transformFiles_append] at hrun
  obtain ⟨headers, run, hrun, -⟩ := exists_of_bind hrun
  refine ⟨headers, headers, run, run, hrun, ?_, rfl, ?_⟩
  · rw [hall]
    exact hrun
  · exact ⟨fun _ _ _ _ => rfl, fun _ _ _ _ => rfl, fun _ _ _ _ => rfl⟩

/-- A selected file to which both runs come alike has the same target in both. -/
theorem SelectedFile.ComesAlike.find?_eq {names : Option (List String)} {api : Api}
    {file : SelectedFile rules names api.files} (halike : file.ComesAlike) {full selected : Outcome}
    (hnodup : (api.files.map (targetName? rules)).Nodup)
    (hfull : (transformApi rules none api).outcome = .ok full)
    (hselected : (transformApi rules names api).outcome = .ok selected) :
    Keyed.find? full.api.files file.name = Keyed.find? selected.api.files file.name := by
  have hall : (api.files.filter fun pair => isSelected none pair.1) = api.files :=
    List.filter_eq_self.2 fun _ _ => rfl
  have hsome : ((api.files.filter fun pair => isSelected names pair.1).map
      (targetName? rules)).Nodup := hnodup.sublist (List.filter_sublist.map _)
  obtain ⟨_, _, hfullFiles, rfl⟩ := transformApi_cases hfull
  obtain ⟨_, _, hselectedFiles, rfl⟩ := transformApi_cases hselected
  rw [hall, file.files_eq] at hfullFiles
  rw [file.files_eq] at hnodup
  rw [file.filter_eq] at hselectedFiles hsome
  obtain ⟨_, between, header, after, hearlier, hheader, hfind⟩ :=
    transformFiles_of_split hnodup hfullFiles
  obtain ⟨_, between', header', after', hearlier', hheader', hfind'⟩ :=
    transformFiles_of_split hsome hselectedFiles
  obtain ⟨_, _, _, _, hrun, hrun', hrules, htypes⟩ := halike.runs
  cases hearlier.symm.trans hrun
  cases hearlier'.symm.trans hrun'
  have hkept := withoutPatches_of_transformFiles hearlier
  have hkept' := withoutPatches_of_transformFiles hearlier'
  -- the files before this one leave all but the patches of the rules as they are
  have hcome : ComeAlike file.source file.key between between' :=
    ⟨hkept'.trans hkept.symm, hrules, htypes⟩
  have hplaced : placed? between.rules file.source.name = some (file.key, file.name) := by
    rw [placed?_congr hkept]
    exact file.placed
  obtain ⟨_, hsame⟩ := hcome.transformFile hplaced hheader
  cases hsame.symm.trans hheader'
  obtain ⟨key, hplaced'⟩ := name_of_transformFile hheader
  have hname : file.name = header.name :=
    congrArg Prod.snd (Option.some.inj (hplaced.symm.trans hplaced'))
  rw [hname, hfind, hfind']

/-- **Selected files.**  Of an interface whose files have different targets let a run over all files
and a run over selected ones give results.  Every target of the second run is that of a selected
file, and when both runs come alike to this file, the first run has the same target.  So it has when
no file before this one is left out. -/
theorem transformApi_selected {names : Option (List String)} {api : Api} {full selected : Outcome}
    (hnodup : (api.files.map (targetName? rules)).Nodup)
    (hfull : (transformApi rules none api).outcome = .ok full)
    (hselected : (transformApi rules names api).outcome = .ok selected)
    {pair : String × Header} (hpair : pair ∈ selected.api.files) :
    (∃ file : SelectedFile rules names api.files, file.name = pair.1) ∧
      (∀ file : SelectedFile rules names api.files, file.name = pair.1 → file.ComesAlike →
        Keyed.find? full.api.files pair.1 = some pair.2) ∧
      ∀ file : SelectedFile rules names api.files, file.name = pair.1 →
        (∀ other ∈ file.earlier, isSelected names other.1 = true) →
        Keyed.find? full.api.files pair.1 = some pair.2 := by
  obtain ⟨_, _, hrun, rfl⟩ := transformApi_cases hselected
  have hsame : ∀ file : SelectedFile rules names api.files, file.name = pair.1 →
      file.ComesAlike → Keyed.find? full.api.files pair.1 = some pair.2 := by
    intro file hname halike
    -- targets differ, so what is found under a name is all that stands there
    have hempty : (Keyed.keys ([] : Keyed Header)).Nodup := List.nodup_nil
    have hkeys := nodup_keys_transformFiles hempty hrun
    rw [← hname, halike.find?_eq hnodup hfull hselected, hname]
    exact Keyed.find?_of_mem hkeys hpair
  refine ⟨?_, hsame, fun file hname hearlier => ?_⟩
  · rcases exists_of_mem_transformFiles hrun hpair with hmem | ⟨file, hfile, hname⟩
    · cases hmem
    · obtain ⟨hfile, hselected⟩ := List.mem_filter.1 hfile
      obtain ⟨earlier, later, hfiles⟩ := List.append_of_mem hfile
      obtain ⟨⟨key, name⟩, hplaced, rfl⟩ := Option.map_eq_some_iff.1 hname
      exact ⟨⟨earlier, file.1, file.2, later, hfiles, hselected, key, pair.1, hplaced⟩, rfl⟩
  · exact hsame file hname (file.comesAlike_of_forall_selected hearlier hselected)

end

/-- A header with a record. -/
def pointSource : Header where
  name := "SDL_rect.h"
  entries := [("SDL_Point", .single { name := "SDL_Point", kind := .struct })]

/-- A header with a function that takes the record. -/
def warpSource : Header where
  name := "SDL_mouse.h"
  entries := [("SDL_Warp", .single {
    name := "SDL_Warp", kind := .function, type := some "void"
    parameters := some [.named "to" "SDL_Point *" none] })]

/-- A header with a function that does not. -/
def delaySource : Header where
  name := "SDL_timer.h"
  entries := [("SDL_Delay", .single {
    name := "SDL_Delay", kind := .function, type := some "void"
    parameters := some [.named "ms" "int" none] })]

/-- The three headers. -/
def delayApi : Api where
  files := [("SDL_rect.h", pointSource), ("SDL_mouse.h", warpSource), ("SDL_timer.h", delaySource)]

/-- Rules that drop an opening and leave docs alone. -/
def delayRules : Rules where
  prefixes := some ["SDL_"]
  docRules := some []

/-- The selected files. -/
def delayNames : List String := ["SDL_mouse.h", "SDL_timer.h"]

/-- The target of the function that takes the record, under the name of this type. -/
def warpTarget (type : String) : Header where
  name := "mouse.hpp"
  doc := "@file mouse.hpp"
  entries := [("Warp", .single {
    name := "Warp", kind := .function, type := some "void"
    parameters := some [.named "to" type none]
    sourceName := some "SDL_Warp" })]

/-- The target of the other function. -/
def delayTarget : Header where
  name := "timer.hpp"
  doc := "@file timer.hpp"
  entries := [("Delay", .single {
    name := "Delay", kind := .function, type := some "void"
    parameters := some [.named "ms" "int" none]
    sourceName := some "SDL_Delay" })]

/-- The target of all headers. -/
def delayFull : Outcome where
  api := { files := [
    ("rect.hpp", {
      name := "rect.hpp"
      doc := "@file rect.hpp"
      entries := [("Point", .single {
        name := "Point", kind := .typeAlias, type := some "SDL_Point"
        sourceName := some "SDL_Point" })] }),
    ("mouse.hpp", warpTarget "Point *"),
    ("timer.hpp", delayTarget)] }
  warnings := []
  rules := delayRules

/-- The target of the selected headers. -/
def delaySelected : Outcome where
  api := { files := [("mouse.hpp", warpTarget "SDL_Point *"), ("timer.hpp", delayTarget)] }
  warnings := []
  rules := delayRules

theorem transformApi_delayFull :
    (transformApi delayRules none delayApi).outcome = .ok delayFull := rfl

theorem transformApi_delaySelected :
    (transformApi delayRules (some delayNames) delayApi).outcome = .ok delaySelected := rfl

/-- The three targets have names of their own. -/
theorem nodup_delay : (delayApi.files.map (targetName? delayRules)).Nodup := by
  have htargets : delayApi.files.map (targetName? delayRules) =
      [some "rect.hpp", some "mouse.hpp", some "timer.hpp"] := rfl
  rw [htargets]
  decide

/-- The last header among the selected ones. -/
def delayFile : SelectedFile delayRules (some delayNames) delayApi.files where
  earlier := [("SDL_rect.h", pointSource), ("SDL_mouse.h", warpSource)]
  fileKey := "SDL_timer.h"
  source := delaySource
  later := []
  files_eq := rfl
  selected := rfl
  key := none
  name := "timer.hpp"
  placed := rfl

/-- The maps differ in the record, but not in the types of the last header. -/
theorem comesAlike_delay : delayFile.ComesAlike := by
  refine ⟨_, _, _, _, rfl, rfl, rfl, ?_⟩
  exact ⟨by decide, by decide, by decide⟩

/-- A run over two of three files gives the same target for the last one. -/
theorem transformApi_selected_delay :
    (delayApi.files.map (targetName? delayRules)).Nodup ∧
      (transformApi delayRules none delayApi).outcome = .ok delayFull ∧
      (transformApi delayRules (some delayNames) delayApi).outcome = .ok delaySelected ∧
      ("timer.hpp", delayTarget) ∈ delaySelected.api.files ∧ delayFile.ComesAlike ∧
      Keyed.find? delayFull.api.files "timer.hpp" = some delayTarget := by
  have hpair : ("timer.hpp", delayTarget) ∈ delaySelected.api.files :=
    List.mem_cons_of_mem _ List.mem_cons_self
  exact ⟨nodup_delay, transformApi_delayFull, transformApi_delaySelected, hpair, comesAlike_delay,
    (transformApi_selected nodup_delay transformApi_delayFull transformApi_delaySelected hpair).2.1
      delayFile rfl comesAlike_delay⟩

/-- A file that is left out may change the target of a selected one: it declares a type that the
other uses. -/
theorem not_forall_selected :
    ¬ ∀ (rules : Rules) (names : Option (List String)) (api : Api) (full selected : Outcome),
      (api.files.map (targetName? rules)).Nodup →
      (transformApi rules none api).outcome = .ok full →
      (transformApi rules names api).outcome = .ok selected →
      ∀ pair ∈ selected.api.files, Keyed.find? full.api.files pair.1 = some pair.2 := by
  intro hall
  have hsame : Keyed.find? delayFull.api.files "mouse.hpp" = some (warpTarget "SDL_Point *") :=
    hall delayRules (some delayNames) delayApi delayFull delaySelected nodup_delay
      transformApi_delayFull transformApi_delaySelected _ List.mem_cons_self
  have hmouse : Keyed.find? delayFull.api.files "mouse.hpp" = some (warpTarget "Point *") := rfl
  rw [hmouse] at hsame
  simp [warpTarget] at hsame

end Transform

end HeaderApi
