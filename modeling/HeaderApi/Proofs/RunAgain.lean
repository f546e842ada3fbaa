import HeaderApi.Proofs.StepProperties
import HeaderApi.Proofs.TransformTwice

/-!
# Running again under the rules that a run left

A run gives names to patches that have none, and never takes a name away or changes one.  So the
rules grow along a run.  A step that grows the rules to some point does the same from every point
behind it, and there it has nothing left to do.  For a whole run this means that a second one under
the rules that the first one left gives the same outcome, rules included.
-/

namespace HeaderApi

open Text Transform

/-! ## Growing rules -/

/-- A patch, and one that may have got a name where it had none. -/
inductive Patch.Grows (patch : Patch) : Patch → Prop
  | same : Grows patch patch
  | named (name : String) : Grows patch (withName patch name)

/-- A patch that has got a name has one. -/
theorem exists_name_withName (patch : Patch) (name : String) :
    ∃ given, (withName patch name).name = .given given := by
  unfold withName
  split
  · rename_i given h
    exact ⟨given, h⟩
  · exact ⟨name, rfl⟩

/-- A patch with a name keeps it. -/
theorem withName_of_given {patch : Patch} {given : String} (h : patch.name = .given given)
    (name : String) : withName patch name = patch := by
  unfold withName
  rw [h]

/-- A patch that has got a name keeps it. -/
theorem withName_withName (patch : Patch) (first second : String) :
    withName (withName patch first) second = withName patch first := by
  obtain ⟨given, h⟩ := exists_name_withName patch first
  exact withName_of_given h second

/-- A patch that grows in two steps grows. -/
theorem Patch.Grows.trans {p q r : Patch} (hpq : p.Grows q) (hqr : q.Grows r) : p.Grows r := by
  cases hqr with
  | same => exact hpq
  | named second =>
    cases hpq with
    | same => exact .named second
    | named first =>
      rw [withName_withName]
      exact .named first

/-- A patch with a name grows no further. -/
theorem Patch.Grows.eq_of_named {patch patch' : Patch} {name : String}
    (h : (withName patch name).Grows patch') : patch' = withName patch name := by
  cases h with
  | same => rfl
  | named other => exact withName_withName patch name other

namespace FileRules

/-- The rules for a file, and rules in which patches may have got names. -/
structure Grows (file file' : FileRules) : Prop where
  others : file'.withoutPatches = file.withoutPatches
  patches : ∀ key, Option.Rel Patch.Grows (file.patch? key) (file'.patch? key)

variable {file file' file'' : FileRules}

theorem Grows.refl (file : FileRules) : file.Grows file := by
  refine ⟨rfl, fun key => ?_⟩
  cases file.patch? key with
  | none => exact .none
  | some patch => exact .some .same

/-- Rules of a file that grow in two steps grow. -/
theorem Grows.trans (h : file.Grows file') (h' : file'.Grows file'') : file.Grows file'' := by
  refine ⟨h'.others.trans h.others, fun key => ?_⟩
  have hfirst := h.patches key
  have hsecond := h'.patches key
  revert hfirst hsecond
  generalize file.patch? key = p
  generalize file'.patch? key = q
  generalize file''.patch? key = r
  rintro (hpq | -) hqr
  · cases hqr with
    | some hqr => exact .some (hpq.trans hqr)
  · cases hqr with
    | none => exact .none

/-- No patch comes in where there was none. -/
theorem Grows.patch?_eq_none (h : file.Grows file') {key : String}
    (hnone : file.patch? key = none) : file'.patch? key = none := by
  have hrel := h.patches key
  rw [hnone] at hrel
  generalize file'.patch? key = other at hrel
  cases hrel
  rfl

/-- A patch stays there and grows. -/
theorem Grows.exists_patch (h : file.Grows file') {key : String} {patch : Patch}
    (hpatch : file.patch? key = some patch) :
    ∃ patch', file'.patch? key = some patch' ∧ patch.Grows patch' := by
  have hrel := h.patches key
  rw [hpatch] at hrel
  generalize file'.patch? key = other at hrel
  cases hrel with
  | some hgrows => exact ⟨_, rfl, hgrows⟩

/-- Looking up after a patch that was there is replaced. -/
theorem patch?_setPatch {key : String} {old : Patch} (h : file.patch? key = some old)
    (patch : Patch) (other : String) :
    (file.setPatch key patch).patch? other =
      if key = other then some patch else file.patch? other := by
  unfold setPatch patch? at *
  cases hpatches : file.patches with
  | none =>
    rw [hpatches] at h
    cases h
  | some patches => exact Keyed.find?_insert patches key other patch

/-- Putting a patch where it stands already changes nothing. -/
theorem setPatch_of_patch? {key : String} {patch : Patch} (h : file.patch? key = some patch) :
    file.setPatch key patch = file := by
  unfold setPatch patch? at *
  cases hpatches : file.patches with
  | none =>
    rw [hpatches] at h
    cases h
  | some patches =>
    rw [hpatches, Option.getD_some] at h
    rw [Option.map_some, Keyed.insert_of_find? h, ← hpatches]

/-- Rules grow when a patch is given a name. -/
theorem grows_setPatch {key : String} {patch : Patch} (h : file.patch? key = some patch)
    (name : String) : file.Grows (file.setPatch key (withName patch name)) := by
  refine ⟨withoutPatches_setPatch file key _, fun other => ?_⟩
  rw [patch?_setPatch h]
  by_cases hkey : key = other
  · rw [if_pos hkey, ← hkey, h]
    exact .some (.named name)
  · rw [if_neg hkey]
    exact (Grows.refl file).patches other

/-- Empty rules have no patches to name. -/
theorem Grows.empty (h : ({} : FileRules).Grows file) : file.Grows {} := by
  refine ⟨h.others.symm, fun key => ?_⟩
  rw [h.patch?_eq_none rfl]
  exact .none

end FileRules

namespace Rules

/-- Rules, and rules in which patches may have got names. -/
structure Grows (rules rules' : Rules) : Prop where
  others : rules'.withoutPatches = rules.withoutPatches
  files : ∀ key, (rules.fileRules key).Grows (rules'.fileRules key)

variable {rules rules' rules'' : Rules}

theorem Grows.refl (rules : Rules) : rules.Grows rules := ⟨rfl, fun _ => .refl _⟩

theorem Grows.trans (h : rules.Grows rules') (h' : rules'.Grows rules'') : rules.Grows rules'' :=
  ⟨h'.others.trans h.others, fun key => (h.files key).trans (h'.files key)⟩

/-- Looking up after the rules of a file are replaced. -/
theorem fileRules_setFileRules {key : Option String}
    (hkey : ∀ k, key = some k → Keyed.contains (rules.files.getD []) k = true) (file : FileRules)
    (other : Option String) :
    (rules.setFileRules key file).fileRules other =
      if key = other ∧ key.isSome = true then file else rules.fileRules other := by
  cases key with
  | none =>
    rw [if_neg (by simp)]
    rfl
  | some key =>
    cases hfiles : rules.files with
    | none =>
      have hcontains := hkey key rfl
      rw [hfiles] at hcontains
      cases hcontains
    | some files =>
      cases other with
      | none =>
        rw [if_neg (by simp)]
        rfl
      | some other =>
        unfold setFileRules fileRules
        simp only [hfiles, Option.map_some, Option.getD_some, Option.bind_some,
          Keyed.find?_insert, Option.some.injEq, Option.isSome_some, and_true]
        split
        · rfl
        · rfl

/-- Rules grow with those of a file. -/
theorem grows_setFileRules {key : Option String}
    (hkey : ∀ k, key = some k → Keyed.contains (rules.files.getD []) k = true) {file : FileRules}
    (h : (rules.fileRules key).Grows file) : rules.Grows (rules.setFileRules key file) := by
  refine ⟨withoutPatches_setFileRules hkey h.others, fun other => ?_⟩
  rw [fileRules_setFileRules hkey]
  split
  · rename_i heq
    rw [← heq.1]
    exact h
  · exact .refl _

end Rules

namespace Transform

/-! ## Steps that can be replayed -/

/-- A part of a state that grows along steps. -/
structure Growing (σ ρ : Type) where
  part : σ → ρ
  withPart : σ → ρ → σ
  Grows : ρ → ρ → Prop
  refl : ∀ r, Grows r r
  trans : ∀ {r r' r''}, Grows r r' → Grows r' r'' → Grows r r''

/-- A step that grows a part of the state, and that does the same where the part has grown as far
or farther already, without growing it there. -/
def Growing.Replays {σ ρ ε α : Type} (g : Growing σ ρ) (x : EStateM ε σ α) : Prop :=
  ∀ s a s', x s = .ok a s' → g.Grows (g.part s) (g.part s') ∧
    ∀ r, g.Grows (g.part s') r → x (g.withPart s r) = .ok a (g.withPart s' r)

section Growing

variable {σ ρ ε α β : Type} {g : Growing σ ρ}

theorem Growing.Replays.pure (a : α) : g.Replays (Pure.pure a : EStateM ε σ α) := by
  rintro s _ _ ⟨⟩
  exact ⟨g.refl _, fun r _ => rfl⟩

/-- Two steps in turn can be replayed when each of them can. -/
theorem Growing.Replays.bind {x : EStateM ε σ α} {f : α → EStateM ε σ β} (hx : g.Replays x)
    (hf : ∀ a, g.Replays (f a)) : g.Replays (x >>= f) := by
  intro s b s' h
  obtain ⟨a, between, ha, hb⟩ := exists_of_bind h
  obtain ⟨hgrows, hagain⟩ := hx s a between ha
  obtain ⟨hgrows', hagain'⟩ := hf a between b s' hb
  refine ⟨g.trans hgrows hgrows', fun r hr => ?_⟩
  rw [bind_of_ok (hagain r (g.trans hgrows' hr))]
  exact hagain' r hr

end Growing

/-- The rules of the file, as the part of a session that grows. -/
def sessionRules : Growing Session FileRules where
  part := Session.file
  withPart s file := { s with file }
  Grows := FileRules.Grows
  refl := .refl
  trans := .trans

/-- The rules, as the part of a run that grows. -/
def runRules : Growing Run Rules where
  part := Run.rules
  withPart run rules := { run with rules }
  Grows := Rules.Grows
  refl := .refl
  trans := .trans

/-- A step of one file that can be replayed. -/
abbrev Replays {α : Type} (x : Step α) : Prop := sessionRules.Replays x

section Replays

variable {α β : Type}

theorem replays_throw (e : Error) : Replays (throw e : Step α) := by
  rintro s a s' ⟨⟩

/-- A change that has nothing to do with the rules of the file. -/
theorem replays_modify {f : Session → Session} (hf : ∀ s, (f s).file = s.file)
    (hcomm : ∀ s file, f { s with file } = { f s with file }) :
    Replays (modify f : Step Unit) := by
  rintro s _ _ ⟨⟩
  constructor
  · show s.file.Grows (f s).file
    rw [hf]
    exact .refl _
  · intro file _
    show EStateM.Result.ok () (f { s with file }) = .ok () { f s with file }
    rw [hcomm]

theorem replays_note (level : Level) (text : String) : Replays (note level text) :=
  replays_modify (fun _ => rfl) fun _ _ => rfl

theorem replays_modifyContext (f : Context → Context) : Replays (modifyContext f) :=
  replays_modify (fun _ => rfl) fun _ _ => rfl

/-- A step that looks at the session, but not at the patches of the file. -/
theorem replays_get_bind {f : Session → Step β} (hf : ∀ s, Replays (f s))
    (hagree : ∀ s (file : FileRules), file.withoutPatches = s.file.withoutPatches →
      f { s with file } = f s) : Replays (get >>= f) := by
  intro s b s' h
  have hget : ∀ s, (get >>= f) s = f s s := fun _ => rfl
  rw [hget] at h
  obtain ⟨hgrows, hagain⟩ := hf s s b s' h
  refine ⟨hgrows, fun file hfile => ?_⟩
  rw [hget]
  show f { s with file } { s with file } = _
  rw [hagree s file ((hfile.others).trans hgrows.others)]
  exact hagain file hfile

end Replays

/-! ## Steps of a file -/

/-- What a patch does to an entry and to the session. -/
theorem applyPatch_cases {key : String} {signature : Signature} {s s' : Session} {entry : Entry}
    (h : applyPatch key signature s = .ok entry s') :
    (s.file.patch? key = none ∧ entry = ⟨signature, none⟩ ∧ s' = s) ∨
      ∃ patch, s.file.patch? key = some patch ∧
        patched (withName patch signature.name) signature = .valid entry ∧
        s' = { s with file := s.file.setPatch key (withName patch signature.name) } := by
  obtain ⟨_, _, ⟨⟩, h⟩ := exists_of_bind h
  cases hpatch : s.file.patch? key with
  | none =>
    rw [hpatch] at h
    cases h
    exact Or.inl ⟨rfl, rfl, rfl⟩
  | some patch =>
    rw [hpatch] at h
    obtain ⟨_, _, ⟨⟩, h⟩ := exists_of_bind h
    refine Or.inr ⟨patch, rfl, ?_⟩
    cases hvalid : patched (withName patch signature.name) signature with
    | valid result =>
      rw [hvalid] at h
      cases h
      exact ⟨rfl, rfl⟩
    | invalid e =>
      rw [hvalid] at h
      cases h

/-- A patch that is there gets the name of the target, and is applied. -/
theorem applyPatch_of_patch? {key : String} {signature : Signature} {s : Session} {patch : Patch}
    {entry : Entry} (hpatch : s.file.patch? key = some patch)
    (hvalid : patched (withName patch signature.name) signature = .valid entry) :
    applyPatch key signature s =
      .ok entry { s with file := s.file.setPatch key (withName patch signature.name) } := by
  have hget : (get : Step Session) s = .ok s s := rfl
  unfold applyPatch
  rw [bind_of_ok hget, hpatch]
  have hset : (modify fun session : Session => { session with
      file := session.file.setPatch key (withName patch signature.name) } : Step Unit) s =
      .ok () { s with file := s.file.setPatch key (withName patch signature.name) } := rfl
  dsimp only
  rw [bind_of_ok hset, hvalid]
  rfl

theorem applyPatch_of_none {key : String} (signature : Signature) {s : Session}
    (hpatch : s.file.patch? key = none) : applyPatch key signature s = .ok ⟨signature, none⟩ s := by
  have hget : (get : Step Session) s = .ok s s := rfl
  unfold applyPatch
  rw [bind_of_ok hget, hpatch]
  rfl

/-- Where a patch has been named already, the same name is merged and nothing is written. -/
theorem replays_applyPatch (key : String) (signature : Signature) :
    Replays (applyPatch key signature) := by
  intro s entry s' h
  rcases applyPatch_cases h with ⟨hnone, rfl, rfl⟩ | ⟨patch, hpatch, hvalid, rfl⟩
  · exact ⟨.refl _, fun file hfile => applyPatch_of_none signature (hfile.patch?_eq_none hnone)⟩
  · refine ⟨FileRules.grows_setPatch hpatch _, fun (file : FileRules) hfile => ?_⟩
    have hwritten : (s.file.setPatch key (withName patch signature.name)).patch? key =
        some (withName patch signature.name) := by
      rw [FileRules.patch?_setPatch hpatch, if_pos rfl]
    obtain ⟨patch', hpatch', hgrows⟩ := FileRules.Grows.exists_patch hfile hwritten
    have heq := hgrows.eq_of_named
    subst heq
    have hvalid' : patched (withName (withName patch signature.name) signature.name) signature =
        .valid entry := by
      rw [withName_withName]
      exact hvalid
    show applyPatch key signature { s with file } = .ok entry { s with file }
    rw [applyPatch_of_patch? (s := { s with file }) hpatch' hvalid', withName_withName]
    dsimp only
    rw [FileRules.setPatch_of_patch? hpatch']

/-- That a step can be replayed passes from its parts to the whole. -/
theorem compositional_replays : Compositional Replays fun _ => True where
  pure := .pure
  bind := .bind
  throw := replays_throw
  note := replays_note
  registerAlias _ _ := replays_modifyContext _
  registerResource _ _ := replays_modifyContext _
  warn _ := replays_modifyContext _
  applyPatch := replays_applyPatch
  get_bind hf hsame := replays_get_bind hf fun s _ hfile => hsame s _ hfile
  plainSignature _ _ := replays_get_bind (fun _ => .pure _) fun _ _ _ => rfl

section

variable [CharacterNames]

/-- **One file.**  The steps of a file can be replayed. -/
theorem replays_fileSteps (rules : Rules) (source : Header) (name : String) :
    Replays (fileSteps rules source name) :=
  compositional_replays.fileSteps rules (fun _ _ => trivial) name

/-! ## Runs -/

/-- Of the rules the steps of an entry use names and docs only. -/
theorem transformEntry_withoutPatches (rules : Rules) (overrides : Bool) (entry : Entry) :
    transformEntry rules.withoutPatches overrides entry = transformEntry rules overrides entry :=
  rfl

/-- Overloads do not look at the patches of the rules as a whole. -/
theorem transformOverloads_withoutPatches (rules : Rules) (entries : List Entry) :
    transformOverloads rules.withoutPatches entries = transformOverloads rules entries := by
  induction entries with
  | nil => rfl
  | cons entry entries ih =>
    rw [transformOverloads, transformOverloads, ih, transformEntry_withoutPatches]

/-- The entries of a file do not look at the patches of the rules as a whole. -/
theorem transformEntries_withoutPatches (rules : Rules) (results table : Entries) :
    transformEntries rules.withoutPatches results table = transformEntries rules results table := by
  induction table generalizing results with
  | nil => rfl
  | cons pair table ih =>
    obtain ⟨key, slot⟩ := pair
    cases slot with
    | single entry =>
      rw [transformEntries, transformEntries, transformEntry_withoutPatches]
      simp only [ih]
    | overloads first more =>
      rw [transformEntries, transformEntries, transformOverloads_withoutPatches]
      simp only [ih]

theorem transformEntries_congr {rules rules' : Rules}
    (h : rules'.withoutPatches = rules.withoutPatches) (results table : Entries) :
    transformEntries rules' results table = transformEntries rules results table := by
  rw [← transformEntries_withoutPatches, h, transformEntries_withoutPatches]

/-- The steps of a file do not look at the patches of the rules as a whole. -/
theorem fileSteps_withoutPatches (rules : Rules) (source : Header) (name : String) :
    fileSteps rules.withoutPatches source name = fileSteps rules source name := by
  unfold fileSteps
  simp only [transformEntries_withoutPatches]
  rfl

theorem fileSteps_congr {rules rules' : Rules} (h : rules'.withoutPatches = rules.withoutPatches)
    (source : Header) (name : String) :
    fileSteps rules' source name = fileSteps rules source name := by
  rw [← fileSteps_withoutPatches, h, fileSteps_withoutPatches]

end

/-- The session in which the steps of a file begin. -/
def opened (run : Run) (key : Option String) : Session :=
  ⟨run.context, run.rules.fileRules key, run.log⟩

/-- The run after the steps of a file. -/
def closed (run : Run) (key : Option String) (s : Session) : Run :=
  ⟨s.context, run.rules.setFileRules key s.file, s.log⟩

section

variable [CharacterNames]

/-- One file of a run: its name and the key of its rules are found, and its steps are run. -/
theorem transformFile_cases {source header : Header} {run run' : Run}
    (h : transformFile source run = .ok header run') :
    ∃ key name s, placed? run.rules source.name = some (key, name) ∧
      fileSteps run.rules source name (opened run key) = .ok header s ∧
      run' = closed run key s := by
  obtain ⟨_, _, ⟨⟩, h⟩ := exists_of_bind h
  unfold placed?
  cases hdefault : run.rules.targetFileName source.name with
  | error e =>
    dsimp only at h
    rw [hdefault] at h
    cases h
  | ok default =>
    dsimp only at h
    rw [hdefault] at h
    dsimp only [withFile] at h
    split at h
    · rename_i header' s hsteps
      cases h
      exact ⟨_, _, s, rfl, hsteps, rfl⟩
    · cases h

/-- A file is transformed by its steps, from the rules of its key. -/
theorem transformFile_of_steps {source header : Header} {run : Run} {key : Option String}
    {name : String} {s : Session} (hplaced : placed? run.rules source.name = some (key, name))
    (hsteps : fileSteps run.rules source name (opened run key) = .ok header s) :
    transformFile source run = .ok header (closed run key s) := by
  have hget : (get : EStateM Error Run Run) run = .ok run run := rfl
  unfold placed? at hplaced
  unfold transformFile
  rw [bind_of_ok hget]
  dsimp only
  cases hdefault : run.rules.targetFileName source.name with
  | error e =>
    rw [hdefault] at hplaced
    cases hplaced
  | ok default =>
    rw [hdefault] at hplaced
    cases hplaced
    dsimp only [withFile]
    unfold opened at hsteps
    rw [hsteps]
    rfl

/-- The key under which a file is placed is one of the rules. -/
theorem contains_of_placed? {rules : Rules} {source name : String} {key : Option String}
    (h : placed? rules source = some (key, name)) :
    ∀ k, key = some k → Keyed.contains (rules.files.getD []) k = true := by
  rintro k rfl
  unfold placed? at h
  split at h
  · cases h
  · exact Rules.contains_of_fileKey? (congrArg Prod.fst (Option.some.inj h))

theorem placed?_congr {rules rules' : Rules} (h : rules'.withoutPatches = rules.withoutPatches)
    (source : String) : placed? rules' source = placed? rules source := by
  rw [← placed?_withoutPatches, h, placed?_withoutPatches]

/-- A file whose rules have grown already is transformed just as before. -/
theorem replays_transformFile (source : Header) : runRules.Replays (transformFile source) := by
  intro run header run' h
  obtain ⟨key, name, s, hplaced, hsteps, rfl⟩ := transformFile_cases h
  obtain ⟨hfile, hagain⟩ := replays_fileSteps run.rules source name _ _ _ hsteps
  have hkey := contains_of_placed? hplaced
  have hgrows : run.rules.Grows (run.rules.setFileRules key s.file) :=
    Rules.grows_setFileRules hkey hfile
  refine ⟨hgrows, fun (rules : Rules) (hrules : (closed run key s).rules.Grows rules) => ?_⟩
  have hothers : rules.withoutPatches = run.rules.withoutPatches :=
    hrules.others.trans hgrows.others
  -- Without rules of its own a file has no patches, and nothing can have been written.
  have hgrown : s.file.Grows (rules.fileRules key) := by
    have hlater := hrules.files key
    rw [closed, Rules.fileRules_setFileRules hkey] at hlater
    cases key with
    | none => exact FileRules.Grows.empty hfile
    | some key =>
      rw [if_pos ⟨rfl, rfl⟩] at hlater
      exact hlater
  have hsteps' : fileSteps rules source name (opened { run with rules } key) =
      .ok header { s with file := rules.fileRules key } := by
    rw [fileSteps_congr hothers]
    exact hagain (rules.fileRules key) hgrown
  have hplaced' : placed? rules source.name = some (key, name) := by
    rw [placed?_congr hothers, hplaced]
  have hclosed : closed { run with rules } key { s with file := rules.fileRules key } =
      { closed run key s with rules } := by
    have hsame : rules.setFileRules key (rules.fileRules key) = rules :=
      Rules.setFileRules_fileRules (contains_of_placed? hplaced')
    unfold closed
    dsimp only
    rw [hsame]
  have hrun : transformFile source { run with rules } = .ok header
      (closed { run with rules } key { s with file := rules.fileRules key }) :=
    transformFile_of_steps hplaced' hsteps'
  exact hrun.trans (congrArg (EStateM.Result.ok header) hclosed)

theorem replays_transformFiles (results files : Keyed Header) :
    runRules.Replays (transformFiles results files) := by
  induction files generalizing results with
  | nil => exact .pure _
  | cons pair files ih =>
    exact (replays_transformFile pair.2).bind fun header => ih _

omit [CharacterNames] in
/-- The maps that rules start with have nothing to do with patches. -/
theorem ofRules_congr {rules rules' : Rules} (h : rules'.withoutPatches = rules.withoutPatches) :
    Context.ofRules rules' = Context.ofRules rules := by
  have hsame : ∀ rules : Rules, Context.ofRules rules.withoutPatches = Context.ofRules rules :=
    fun _ => rfl
  rw [← hsame, h, hsame]

/-- **Running again.**  When a run gives a result, a second run on the same interface under the
rules that the first one left gives the same target, the same mismatches and the same log lines,
and it leaves the rules as they are, all names of patches included. -/
theorem transformApi_again {rules : Rules} {names : Option (List String)} {api : Api}
    {out : Outcome} (h : (transformApi rules names api).outcome = .ok out) :
    transformApi out.rules names api = ⟨(transformApi rules names api).log, .ok out⟩ := by
  unfold transformApi at h ⊢
  dsimp only at h ⊢
  split at h
  · cases h
  · rename_i files run hrun
    cases h
    obtain ⟨hgrows, hagain⟩ := replays_transformFiles [] _ _ _ _ hrun
    have hsecond := hagain run.rules (.refl _)
    have hmaps : Context.ofRules run.rules = Context.ofRules rules := ofRules_congr hgrows.others
    rw [hmaps]
    have hsecond' : transformFiles [] (api.files.filter fun pair => isSelected names pair.1)
        ⟨.ofRules rules, run.rules, []⟩ = .ok files run := hsecond
    rw [hsecond']

end

/-- Rules with one patch, which has no name, and a resource of the same target name. -/
def windowRules : Rules where
  prefixes := some ["SDL_"]
  files := some [("SDL_video.h", {
    patches := some [("Window", { doc := .given "A window." })]
    types := some [("SDL_Window", .resource)] })]

/-- A header in which a record is announced before its alias. -/
def windowApi : Api where
  files := [("SDL_video.h", {
    name := "SDL_video.h"
    entries := [
      ("SDL_Window-forward", .single { name := "SDL_Window", kind := .forward }),
      ("SDL_Window", .single {
        name := "SDL_Window", kind := .typeAlias, type := some "struct SDL_Window" })] })]

/-- The target of the header.  Both entries find the patch, and the first one has named it. -/
def windowTarget : Outcome where
  api := { files := [("video.hpp", {
    name := "video.hpp"
    doc := "@file video.hpp"
    entries := [
      ("Window-forward", .single {
        name := "Window", kind := .forward, doc := "A window.", sourceName := some "SDL_Window" }),
      ("Window", .single {
        name := "Window", kind := .struct, doc := "A window.", type := some "T"
        parameters := some [.raw "using T::T;"]
        template := some [.named "T" "class" none]
        sourceName := some "SDL_Window" })] })] }
  warnings := [⟨"SDL_Window", "resource", "forward"⟩]
  rules := { windowRules with files := some [("SDL_video.h", {
    patches := some [("Window", { name := .given "Window", doc := .given "A window." })]
    types := some [("SDL_Window", .resource)] })] }

/-- A run that writes a name into a patch, and the run after it. -/
theorem transformApi_again_window :
    (transformApi windowRules none windowApi).outcome = .ok windowTarget ∧
      transformApi windowTarget.rules none windowApi =
        ⟨(transformApi windowRules none windowApi).log, .ok windowTarget⟩ := by
  have hfirst : (transformApi windowRules none windowApi).outcome = .ok windowTarget := rfl
  exact ⟨hfirst, transformApi_again hfirst⟩

end Transform

end HeaderApi
