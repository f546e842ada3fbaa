import HeaderApi.Proofs.PatchNames

/-!
# The table of a target

The entries of a file are transformed one after the other, and those that are not left out survive.
The table of the target has the fixed entries of the file, of each key the last one, and then the
survivors under other keys, of each key the first one.  What is left out of the table has changed
the type maps nevertheless, and nothing depends on the log.
-/

namespace HeaderApi

namespace Transform

variable {rules : Rules}

/-! ## Steps apart from their log -/

/-- A session without its log. -/
def Session.withoutLog (s : Session) : Session := { s with log := [] }

theorem Session.withoutLog_eq_iff {s s' : Session} :
    s'.withoutLog = s.withoutLog ↔ s'.context = s.context ∧ s'.file = s.file := by
  obtain ⟨context, file, log⟩ := s
  obtain ⟨context', file', log'⟩ := s'
  simp [withoutLog]

/-- What a step gives, without the log. -/
def withoutLog {α : Type} : EStateM.Result Error Session α → EStateM.Result Error Session α
  | .ok a s => .ok a s.withoutLog
  | .error e s => .error e s.withoutLog

/-- Two steps that do the same, their log lines apart. -/
def Agrees {α : Type} (x y : Step α) : Prop :=
  ∀ s s' : Session, s'.withoutLog = s.withoutLog → withoutLog (y s') = withoutLog (x s)

section Agrees

variable {α β : Type} {x y : Step α}

theorem agrees_pure (a : α) : Agrees (pure a) (pure a) := by
  intro s s' h
  exact congrArg (EStateM.Result.ok a) h

theorem agrees_throw (e : Error) : Agrees (throw e : Step α) (throw e) := by
  intro s s' h
  exact congrArg (EStateM.Result.error e) h

/-- Steps agree in turn when they do for every value. -/
theorem Agrees.bind {f g : α → Step β} (hx : Agrees x y) (hf : ∀ a, Agrees (f a) (g a)) :
    Agrees (x >>= f) (y >>= g) := by
  intro s s' h
  have hstep := hx s s' h
  change withoutLog (EStateM.bind y g s') = withoutLog (EStateM.bind x f s)
  unfold EStateM.bind
  cases hxs : x s with
  | ok a t =>
    cases hys : y s' with
    | ok b t' =>
      rw [hxs, hys] at hstep
      obtain ⟨rfl, ht⟩ := EStateM.Result.ok.inj hstep
      exact hf b t t' ht
    | error e t' =>
      rw [hxs, hys] at hstep
      cases hstep
  | error e t =>
    cases hys : y s' with
    | ok b t' =>
      rw [hxs, hys] at hstep
      cases hstep
    | error e' t' =>
      rw [hxs, hys] at hstep
      obtain ⟨rfl, ht⟩ := EStateM.Result.error.inj hstep
      exact congrArg (EStateM.Result.error e') ht

theorem agrees_modify {f : Session → Session}
    (hf : ∀ s s', s'.withoutLog = s.withoutLog → (f s').withoutLog = (f s).withoutLog) :
    Agrees (modify f) (modify f : Step Unit) := by
  intro s s' h
  exact congrArg (EStateM.Result.ok ()) (hf s s' h)

theorem agrees_note (level : Level) (text : String) : Agrees (note level text) (note level text) :=
  agrees_modify fun _ _ h => h

/-- A log line is nothing that a step does. -/
theorem agrees_note_nothing (level : Level) (text : String) :
    Agrees (note level text) (pure ()) := by
  intro s s' h
  exact congrArg (EStateM.Result.ok ()) h

theorem agrees_modifyContext (f : Context → Context) :
    Agrees (modifyContext f) (modifyContext f) := by
  refine agrees_modify fun s s' h => ?_
  obtain ⟨hcontext, hfile⟩ := Session.withoutLog_eq_iff.1 h
  exact Session.withoutLog_eq_iff.2 ⟨congrArg f hcontext, hfile⟩

/-- A step that looks at a session apart from its log. -/
theorem agrees_get_bind {f : Session → Step β} (hf : ∀ s, Agrees (f s) (f s))
    (hsame : ∀ s s', s'.context = s.context → s'.file = s.file → f s' = f s) :
    Agrees (get >>= f) (get >>= f) := by
  intro s s' h
  obtain ⟨hcontext, hfile⟩ := Session.withoutLog_eq_iff.1 h
  change withoutLog (f s' s') = withoutLog (f s s)
  rw [hsame s s' hcontext hfile]
  exact hf s s s' h

end Agrees

/-! ## Entries do not depend on the log -/

/-- Applying a patch agrees with itself. -/
theorem agrees_applyPatch (key : String) (signature : Signature) :
    Agrees (applyPatch key signature) (applyPatch key signature) := by
  refine agrees_get_bind (fun s => ?_) fun s s' _ hfile => ?_
  · split
    · exact agrees_pure _
    · refine (agrees_modify fun s s' h => ?_).bind fun _ => ?_
      · obtain ⟨hcontext, hfile⟩ := Session.withoutLog_eq_iff.1 h
        refine Session.withoutLog_eq_iff.2 ⟨hcontext, ?_⟩
        rw [hfile]
      · split
        · exact agrees_pure _
        · exact agrees_throw _
  · dsimp only
    rw [hfile]

/-- That a step agrees with itself passes from its parts to the whole. -/
theorem compositional_agrees : Compositional (fun x => Agrees x x) fun _ => True where
  pure := agrees_pure
  bind := .bind
  throw := agrees_throw
  note := agrees_note
  registerAlias _ _ := agrees_modifyContext _
  registerResource _ _ := agrees_modifyContext _
  warn _ := agrees_modifyContext _
  applyPatch := agrees_applyPatch
  get_bind hf hsame := agrees_get_bind hf fun s s' _ hfile => hsame s s' (by rw [hfile])
  plainSignature _ _ := by
    refine agrees_get_bind (fun _ => agrees_pure _) fun s s' hcontext _ => ?_
    rw [hcontext]

/-! ## Survivors -/

/-- What survives of a slot, and its key: the target of a single entry under its own key, and the
targets of overloads under the name of the first that is left. -/
def survivor? [CharacterNames] (rules : Rules) : Slot → Step (Option (String × Slot))
  | .single entry => do
    match ← transformEntry rules true entry with
    | none => return none
    | some result => return some (result.key, .single result)
  | .overloads first more => do
    match ← transformOverloads rules (first :: more) with
    | [] => return none
    | first :: more => return some (first.name, .overloads first more)

/-- What survives of a table in order, whether or not a key comes twice. -/
def survivors [CharacterNames] (rules : Rules) : Entries → Step (List (String × Slot))
  | [] => return []
  | (_, slot) :: rest => do
    let result ← survivor? rules slot
    let later ← survivors rules rest
    return result.toList ++ later

/-- A result is added when its key is new, the log apart. -/
theorem agrees_addResult (results : Entries) (key : String) (entry : Entry) :
    Agrees (addResult results key entry)
      (pure (Keyed.insertNew results entry.key (.single entry))) := by
  unfold addResult Keyed.insertNew
  split
  · exact (agrees_note_nothing _ _).bind fun _ => agrees_pure results
  · exact agrees_pure _

section

variable [CharacterNames]

/-- What survives of a table begins with what survives of its first entry. -/
theorem map_survivors_single (rules : Rules) (results : Entries) (key : String) (entry : Entry)
    (table : Entries) :
    Keyed.insertNewAll results <$> survivors rules ((key, .single entry) :: table) = (do
      match ← transformEntry rules true entry with
      | none => Keyed.insertNewAll results <$> survivors rules table
      | some result => do
        let results ← pure (Keyed.insertNew results result.key (.single result))
        Keyed.insertNewAll results <$> survivors rules table) := by
  simp only [survivors, survivor?, map_eq_pure_bind, bind_assoc]
  congr 1
  funext result
  cases result with
  | none => simp only [pure_bind, Option.toList_none, List.nil_append]
  | some result =>
    simp only [pure_bind, Option.toList_some, List.singleton_append, Keyed.insertNewAll_cons]

/-- What survives of a table begins with what survives of its first overloads. -/
theorem map_survivors_overloads (rules : Rules) (results : Entries) (key : String) (first : Entry)
    (more : List Entry) (table : Entries) :
    Keyed.insertNewAll results <$> survivors rules ((key, .overloads first more) :: table) = (do
      let made ← transformOverloads rules (first :: more)
      Keyed.insertNewAll (addOverloads results made) <$> survivors rules table) := by
  simp only [survivors, survivor?, map_eq_pure_bind, bind_assoc]
  congr 1
  funext made
  cases made with
  | nil => simp only [pure_bind, Option.toList_none, List.nil_append, addOverloads]
  | cons first more =>
    simp only [pure_bind, Option.toList_some, List.singleton_append, Keyed.insertNewAll_cons,
      addOverloads]

/-- Transforming a table puts what survives of it into the results, of each key the first. -/
theorem agrees_transformEntries (rules : Rules) (results table : Entries) :
    Agrees (transformEntries rules results table)
      (Keyed.insertNewAll results <$> survivors rules table) := by
  induction table generalizing results with
  | nil => exact agrees_pure results
  | cons pair table ih =>
    obtain ⟨key, slot⟩ := pair
    cases slot with
    | single entry =>
      rw [map_survivors_single]
      refine (compositional_agrees.transformEntry rules true trivial).bind fun result => ?_
      cases result with
      | none => exact ih results
      | some result => exact (agrees_addResult results key result).bind fun _ => ih _
    | overloads first more =>
      rw [map_survivors_overloads]
      exact (compositional_agrees.transformOverloads rules fun _ _ => trivial).bind fun made => ih _

end

/-! ## Fixed entries and survivors -/

/-- What the table of a target has: the fixed entries, of each key the last one, and then what
survives under other keys, of each key the first. -/
structure TargetTable (fixedEntries : List Entry) (made : List (String × Slot)) (table : Entries) :
    Prop where
  keys : Keyed.keys table = (fixedEntries.map Entry.key ++ Keyed.keys made).eraseDups
  nodup : (Keyed.keys table).Nodup
  fixed : ∀ before entry after, fixedEntries = before ++ entry :: after →
    entry.key ∉ after.map Entry.key →
    Keyed.find? table entry.key = some (.single (Transform.fixed entry))
  survived : ∀ key, key ∉ fixedEntries.map Entry.key →
    Keyed.find? table key = Keyed.find? made key
  /-- No slot is empty, and every entry carries the name of its source. -/
  sourced : ∀ pair ∈ table, pair.2.toList ≠ [] ∧
    ∀ entry ∈ pair.2.toList, entry.sourceName.isSome = true

/-- Merging adds the entries whose keys are new. -/
theorem mergeFixed_eq_insertNewAll (table others : Entries) :
    (mergeFixed table others).1 = Keyed.insertNewAll table others := by
  induction others generalizing table with
  | nil => rfl
  | cons pair others ih =>
    obtain ⟨key, slot⟩ := pair
    rw [mergeFixed, Keyed.insertNewAll_cons, Keyed.insertNew]
    split
    · exact ih table
    · exact ih _

/-- The keys of the fixed entries, each of them once. -/
theorem keys_fixedTable (file : FileRules) :
    Keyed.keys (fixedTable file) = (file.fixedEntries.map Entry.key).eraseDups := by
  rw [fixedTable, Keyed.keys_ofPairs, Keyed.keys, List.map_map]
  rfl

/-- Under a key the last fixed entry with it is found. -/
theorem find?_fixedTable {file : FileRules} {before after : List Entry} {entry : Entry}
    (hsplit : file.fixedEntries = before ++ entry :: after)
    (hlast : entry.key ∉ after.map Entry.key) :
    Keyed.find? (fixedTable file) entry.key = some (.single (fixed entry)) := by
  rw [fixedTable, hsplit, List.map_append, List.map_cons]
  refine Keyed.find?_ofPairs ?_
  rw [Keyed.keys, List.map_map]
  exact hlast

/-- The entries of a target carry the names of their sources. -/
theorem Settled.sourced {table : Entries} (h : Settled table) {pair : String × Slot}
    (hpair : pair ∈ table) : ∀ entry ∈ pair.2.toList, entry.sourceName.isSome = true := by
  obtain ⟨key, slot⟩ := pair
  have hslot := h.slots _ hpair
  cases slot with
  | single entry => exact List.forall_mem_singleton.2 hslot.2
  | overloads first more => exact hslot.2

/-- Fixed entries and what survives make a table of a target. -/
theorem targetTable_mergeFixed {file : FileRules} {made : List (String × Slot)}
    (h : Settled (Keyed.insertNewAll [] made)) :
    TargetTable file.fixedEntries made
      (mergeFixed (fixedTable file) (Keyed.insertNewAll [] made)).1 := by
  have hsettled := settled_mergeFixed (settled_fixedTable file) h
  have heq : (mergeFixed (fixedTable file) (Keyed.insertNewAll [] made)).1 =
      Keyed.insertNewAll (fixedTable file) made := by
    rw [mergeFixed_eq_insertNewAll, Keyed.insertNewAll_insertNewAll]
  constructor
  · rw [heq]
    exact Keyed.keys_insertNewAll (keys_fixedTable file) made
  · exact hsettled.nodup
  · intro before entry after hsplit hlast
    rw [heq, Keyed.find?_insertNewAll, find?_fixedTable hsplit hlast, Option.some_or]
  · intro key hkey
    have hnone : Keyed.find? (fixedTable file) key = none := by
      rw [← Option.isNone_iff_eq_none, ← Option.isSome_eq_false_iff, ← Bool.not_eq_true,
        Keyed.find?_isSome_iff, keys_fixedTable, List.mem_eraseDups]
      exact hkey
    rw [heq, Keyed.find?_insertNewAll, hnone, Option.none_or]
  · intro pair hpair
    exact ⟨pair.2.toList_ne_nil, hsettled.sourced hpair⟩

/-- What survives of a table makes the results, and leaves the same rules and type maps behind. -/
theorem exists_survivors [CharacterNames] {table results : Entries} {s s' t : Session}
    (h : transformEntries rules [] table s = .ok results t)
    (hs : s'.withoutLog = s.withoutLog) :
    ∃ made t', survivors rules table s' = .ok made t' ∧ results = Keyed.insertNewAll [] made ∧
      t'.context = t.context ∧ t'.file = t.file := by
  have hagrees := agrees_transformEntries rules [] table s s' hs
  rw [h, map_eq_pure_bind] at hagrees
  cases hrun : (survivors rules table >>= fun made => pure (Keyed.insertNewAll [] made)) s' with
  | error e t' =>
    rw [hrun] at hagrees
    cases hagrees
  | ok a t' =>
    rw [hrun] at hagrees
    obtain ⟨rfl, ht⟩ := EStateM.Result.ok.inj hagrees
    obtain ⟨made, between, hmade, hpure⟩ := exists_of_bind hrun
    cases hpure
    exact ⟨made, _, hmade, rfl, Session.withoutLog_eq_iff.1 ht⟩

/-- **One file.**  The target of a file has its fixed entries and what survives of its own entries,
each key once.  The type maps and the rules after it are those after all that survived, whether or
not it stands in the target. -/
theorem transformFile_entries [CharacterNames] {source header : Header} {run run' : Run}
    (h : transformFile source run = .ok header run') :
    ∃ key made after, placed? run.rules source.name = some (key, header.name) ∧
      survivors run.rules source.entries (opened run key) = .ok made after ∧
      run'.context = after.context ∧ run'.rules = run.rules.setFileRules key after.file ∧
      TargetTable (run.rules.fileRules key).fixedEntries made header.entries := by
  obtain ⟨key, name, s, hplaced, hsteps, rfl⟩ := transformFile_cases h
  obtain ⟨results, between, doc, hresults, -, rfl, hfile, hcontext⟩ := fileSteps_cases hsteps
  have hsettled := (keeps_transformEntries run.rules source.entries settled_nil _ _ _ hresults).1
  have hopened :
      (opened run key).withoutLog = (begun source name (opened run key)).withoutLog := rfl
  obtain ⟨made, after, hmade, rfl, hcontext', hfile'⟩ := exists_survivors hresults hopened
  refine ⟨key, made, after, hplaced, hmade, ?_, ?_, targetTable_mergeFixed hsettled⟩
  · exact hcontext.trans hcontext'.symm
  · show run.rules.setFileRules key s.file = run.rules.setFileRules key after.file
    rw [hfile, hfile']

/-- A fixed variable of a type. -/
def fixedDraft (name type : String) : EntryDraft :=
  ⟨⟨name, .var, none, .given type, .unset, .unset, .unset, .unset, .unset, .unset, .unset, .unset,
    .unset, .unset, .unset⟩, .unset⟩

/-- Rules that drop an opening, leave one entry out and fix a variable twice. -/
def originRules : Rules where
  prefixes := some ["SDL_"]
  docRules := some []
  files := some [("SDL_rect.h", {
    ignoreEntries := some ["SDL_Hidden"]
    includeAt := some ⟨some [fixedDraft "origin" "int", fixedDraft "limit" "int",
      fixedDraft "origin" "Point"]⟩ })]

/-- A header in which two entries come to one name, and one to that of a fixed entry. -/
def originSource : Header where
  name := "SDL_rect.h"
  doc := ""
  entries := [
    ("SDL_Point", .single { name := "SDL_Point", kind := .struct }),
    ("SDL_Hidden", .single { name := "SDL_Hidden", kind := .function }),
    ("Point", .single { name := "Point", kind := .function, type := some "SDL_Point" }),
    ("SDL_origin", .single { name := "SDL_origin", kind := .var, type := some "SDL_Point" }),
    ("SDL_Move", .overloads { name := "SDL_Move", kind := .function, type := some "void" }
      [{ name := "SDL_Move", kind := .function, type := some "SDL_Point" }])]

/-- The names of a file with the types that stand under them. -/
def typesOf (result : EStateM.Result Error Run Header) : List (String × List (Option String)) :=
  match result with
  | .ok header _ => header.entries.map fun pair => (pair.1, pair.2.toList.map fun e => e.type)
  | .error _ _ => []

/-- A target with two fixed entries, one of them under the key of an entry of the source. -/
theorem transformFile_entries_origin :
    ∃ header run', transformFile originSource ⟨.ofRules originRules, originRules, []⟩ =
        .ok header run' ∧
      (∃ made, Keyed.keys made = ["Point", "Point", "origin", "Move"] ∧
        TargetTable (originRules.fileRules (some "SDL_rect.h")).fixedEntries made header.entries) ∧
      typesOf (.ok header run') = [("origin", [some "Point"]), ("limit", [some "int"]),
        ("Point", [some "SDL_Point"]), ("Move", [some "void", some "Point"])] := by
  have hrun : ∃ header run', transformFile originSource ⟨.ofRules originRules, originRules, []⟩ =
        .ok header run' ∧
      typesOf (.ok header run') = [("origin", [some "Point"]), ("limit", [some "int"]),
        ("Point", [some "SDL_Point"]), ("Move", [some "void", some "Point"])] := ⟨_, _, rfl, rfl⟩
  obtain ⟨header, run', hok, htypes⟩ := hrun
  obtain ⟨key, made, after, hplaced, hmade, -, -, htable⟩ := transformFile_entries hok
  have hkey : placed? originRules "SDL_rect.h" = some (some "SDL_rect.h", "rect.hpp") := rfl
  obtain ⟨rfl, -⟩ := Prod.mk.inj (Option.some.inj (hkey.symm.trans hplaced))
  have hnames : ∃ found t, survivors originRules originSource.entries
      (opened ⟨.ofRules originRules, originRules, []⟩ (some "SDL_rect.h")) = .ok found t ∧
        Keyed.keys found = ["Point", "Point", "origin", "Move"] := ⟨_, _, rfl, rfl⟩
  obtain ⟨found, t, hfound, hkeys⟩ := hnames
  obtain ⟨rfl, -⟩ := EStateM.Result.ok.inj (hfound.symm.trans hmade)
  exact ⟨header, run', hok, ⟨found, hkeys, htable⟩, htypes⟩

end Transform

end HeaderApi
