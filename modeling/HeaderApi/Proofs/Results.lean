import HeaderApi.Proofs.Tables
import HeaderApi.Transform.File

/-!
# The results of a transformation

Every entry of a target carries the name of its source and stands under its own key.  Of the rules
a run changes nothing but patches.
-/

namespace HeaderApi

/-! ## Rules up to their patches -/

/-- The rules of a file without its patches. -/
def FileRules.withoutPatches (file : FileRules) : FileRules := { file with patches := none }

@[simp] theorem FileRules.withoutPatches_setPatch (file : FileRules) (name : String)
    (patch : Patch) : (file.setPatch name patch).withoutPatches = file.withoutPatches := rfl

namespace Rules

/-- The rules without the patches of their files. -/
def withoutPatches (rules : Rules) : Rules :=
  { rules with files := rules.files.map (Keyed.mapValues FileRules.withoutPatches) }

variable {rules rules' : Rules}

theorem withoutPatches_targetFileName [CharacterNames] (rules : Rules) (name : String) :
    rules.withoutPatches.targetFileName name = rules.targetFileName name := rfl

/-- The rules of a file are found under the same key without the patches. -/
theorem find?_files_withoutPatches (rules : Rules) (key : String) :
    Keyed.find? (rules.withoutPatches.files.getD []) key =
      (Keyed.find? (rules.files.getD []) key).map FileRules.withoutPatches := by
  unfold withoutPatches
  cases rules.files with
  | none => rfl
  | some files => exact Keyed.find?_mapValues _ files key

/-- The patches do not matter for which files have rules. -/
theorem contains_files_withoutPatches (rules : Rules) (key : String) :
    Keyed.contains (rules.withoutPatches.files.getD []) key =
      Keyed.contains (rules.files.getD []) key := by
  rw [Keyed.contains, find?_files_withoutPatches, Option.isSome_map, Keyed.contains]

/-- The patches do not matter for the key of a file. -/
theorem withoutPatches_fileKey? (rules : Rules) (source target : String) :
    rules.withoutPatches.fileKey? source target = rules.fileKey? source target := by
  unfold fileKey?
  dsimp only
  rw [contains_files_withoutPatches, contains_files_withoutPatches]

/-- The rules of a file without patches are those of the rules without patches. -/
theorem withoutPatches_fileRules (rules : Rules) (key : Option String) :
    rules.withoutPatches.fileRules key = (rules.fileRules key).withoutPatches := by
  cases key with
  | none => rfl
  | some key =>
    simp only [fileRules, Option.bind_some, find?_files_withoutPatches]
    cases Keyed.find? (rules.files.getD []) key with
    | none => rfl
    | some file => rfl

/-- The key of the rules for a file is a key of the table of rules. -/
theorem contains_of_fileKey? {source target key : String}
    (h : rules.fileKey? source target = some key) :
    Keyed.contains (rules.files.getD []) key = true := by
  unfold fileKey? at h
  simp only at h
  split at h
  · rename_i hsource
    rw [← Option.some.inj h]
    exact hsource
  · split at h
    · rename_i htarget
      rw [← Option.some.inj h]
      exact htarget
    · cases h

/-- Rules for a file that differ from the present ones in their patches leave all else as it
was. -/
theorem withoutPatches_setFileRules {key : Option String} {file : FileRules}
    (hkey : ∀ k, key = some k → Keyed.contains (rules.files.getD []) k = true)
    (hfile : file.withoutPatches = (rules.fileRules key).withoutPatches) :
    (rules.setFileRules key file).withoutPatches = rules.withoutPatches := by
  cases key with
  | none => rfl
  | some key =>
    obtain ⟨present, hpresent⟩ := Option.isSome_iff_exists.1 (hkey key rfl)
    simp only [fileRules, Option.bind_some, hpresent, Option.getD_some] at hfile
    unfold setFileRules withoutPatches
    cases hfiles : rules.files with
    | none => rfl
    | some files =>
      rw [hfiles, Option.getD_some] at hpresent
      have hfind : Keyed.find? (Keyed.mapValues FileRules.withoutPatches files) key =
          some file.withoutPatches := by
        rw [Keyed.find?_mapValues, hpresent, Option.map_some, hfile]
      simp only [Option.map_some, Keyed.mapValues_insert]
      rw [Keyed.insert_of_find? hfind]

/-- Putting back the rules of a file changes nothing. -/
theorem setFileRules_fileRules {key : Option String}
    (hkey : ∀ k, key = some k → Keyed.contains (rules.files.getD []) k = true) :
    rules.setFileRules key (rules.fileRules key) = rules := by
  cases key with
  | none => rfl
  | some key =>
    obtain ⟨file, hfile⟩ := Option.isSome_iff_exists.1 (hkey key rfl)
    unfold setFileRules fileRules
    simp only [Option.bind_some, hfile, Option.getD_some]
    cases hfiles : rules.files with
    | none =>
      rw [hfiles] at hfile
      cases hfile
    | some files =>
      rw [hfiles, Option.getD_some] at hfile
      rw [Option.map_some, Keyed.insert_of_find? hfile, ← hfiles]

end Rules

/-- A valid application is one of a valid function to a valid value. -/
theorem Checked.exists_of_seq {α β : Type} {f : Checked (α → β)} {x : Checked α} {b : β}
    (h : f <*> x = .valid b) : ∃ g a, f = .valid g ∧ x = .valid a ∧ g a = b := by
  change Checked.seq f x = .valid b at h
  unfold Checked.seq at h
  -- three of the four cases are failures
  split at h
  · rename_i g a
    exact ⟨g, a, rfl, rfl, Checked.valid.inj h⟩
  · cases h
  · cases h
  · cases h

/-! ## Entries of a table -/

theorem Entries.mem_toList {table : Entries} {entry : Entry} :
    entry ∈ table.toList ↔ ∃ pair ∈ table, entry ∈ pair.2.toList := List.mem_flatMap

/-- A slot that is inserted brings in no other entries. -/
theorem Entries.mem_toList_insert {table : Entries} {key : String} {slot : Slot} {entry : Entry}
    (h : entry ∈ Entries.toList (Keyed.insert table key slot)) :
    entry ∈ slot.toList ∨ entry ∈ table.toList := by
  obtain ⟨pair, hpair, hentry⟩ := mem_toList.1 h
  rcases Keyed.mem_insert hpair with rfl | hmem
  · exact Or.inl hentry
  · exact Or.inr (mem_toList.2 ⟨pair, hmem, hentry⟩)

/-- Slots that are inserted bring in no other entries. -/
theorem Entries.mem_toList_insertAll {table pairs : Entries} {entry : Entry}
    (h : entry ∈ Entries.toList (Keyed.insertAll table pairs)) :
    entry ∈ table.toList ∨ ∃ pair ∈ pairs, entry ∈ pair.2.toList := by
  unfold Keyed.insertAll at h
  induction pairs generalizing table with
  | nil => exact Or.inl h
  | cons pair pairs ih =>
    rcases ih h with hmem | ⟨other, hother, hmem⟩
    · rcases mem_toList_insert hmem with hnew | hold
      · exact Or.inr ⟨pair, List.mem_cons_self, hnew⟩
      · exact Or.inl hold
    · exact Or.inr ⟨other, List.mem_cons_of_mem _ hother, hmem⟩

namespace Transform

/-! ## Steps that change no more than patches -/

/-- The value of a bound step comes from the values of its parts. -/
theorem exists_of_bind {ε σ α β : Type} {x : EStateM ε σ α} {f : α → EStateM ε σ β} {s s' : σ}
    {b : β} (h : (x >>= f) s = .ok b s') :
    ∃ a between, x s = .ok a between ∧ f a between = .ok b s' := by
  change EStateM.bind x f s = .ok b s' at h
  unfold EStateM.bind at h
  split at h
  · rename_i a between hx
    exact ⟨a, between, hx, h⟩
  · cases h

/-- Behind a step that gives a value the next one is run with it. -/
theorem bind_of_ok {ε σ α β : Type} {x : EStateM ε σ α} {f : α → EStateM ε σ β} {s s' : σ} {a : α}
    (h : x s = .ok a s') : (x >>= f) s = f a s' := by
  change EStateM.bind x f s = f a s'
  rw [EStateM.bind, h]

/-- A step whose value, if it has one, has a property, and that leaves the rules of its file as
they are, patches apart. -/
def Keeps {α : Type} (P : α → Prop) (x : Step α) : Prop :=
  ∀ s a s', x s = .ok a s' → P a ∧ s'.file.withoutPatches = s.file.withoutPatches

section Keeps

variable {α β : Type} {P : α → Prop} {Q : β → Prop}

theorem Keeps.pure {a : α} (h : P a) : Keeps P (Pure.pure a : Step α) := by
  rintro s _ _ ⟨⟩
  exact ⟨h, rfl⟩

/-- A step behind another keeps what it keeps for every value of that one. -/
theorem Keeps.bind {x : Step α} {f : α → Step β} (hx : Keeps P x) (hf : ∀ a, P a → Keeps Q (f a)) :
    Keeps Q (x >>= f) := by
  intro s b s' h
  obtain ⟨a, between, ha, hb⟩ := exists_of_bind h
  obtain ⟨hP, hfile⟩ := hx s a between ha
  obtain ⟨hQ, hfile'⟩ := hf a hP between b s' hb
  exact ⟨hQ, hfile'.trans hfile⟩

/-- A step that only tells something apart from its value. -/
theorem Keeps.andThen {x : Step α} {f : α → Step β} (hx : Keeps (fun _ => True) x)
    (hf : ∀ a, Keeps Q (f a)) : Keeps Q (x >>= f) :=
  hx.bind fun a _ => hf a

theorem keeps_get : Keeps (fun _ => True) (get : Step Session) := by
  rintro s _ _ ⟨⟩
  exact ⟨trivial, rfl⟩

theorem keeps_throw (e : Error) : Keeps P (throw e : Step α) := by
  rintro s a s' ⟨⟩

theorem keeps_modify {f : Session → Session}
    (h : ∀ s, (f s).file.withoutPatches = s.file.withoutPatches) :
    Keeps (fun _ => True) (modify f : Step Unit) := by
  rintro s _ _ ⟨⟩
  exact ⟨trivial, h s⟩

theorem keeps_note (level : Level) (text : String) :
    Keeps (fun _ => True) (note level text) :=
  keeps_modify fun _ => rfl

theorem keeps_modifyContext (f : Context → Context) :
    Keeps (fun _ => True) (modifyContext f) :=
  keeps_modify fun _ => rfl

theorem keeps_ofRule (x : Except PatternError α) : Keeps (fun _ => True) (ofRule x) := by
  cases x with
  | ok a => exact Keeps.pure trivial
  | error e => exact keeps_throw _

end Keeps

/-! ## Entries -/

/-- An entry of a target carries the name of its source. -/
def Made (entry : Signature) : Prop := entry.sourceName.isSome = true

theorem made_common (entry : Signature) (name : String) : Made (common entry name) := rfl

theorem made_plainSignature (context : Context) (entry : Signature) (name : String) :
    Made (plainSignature context entry name) := by
  unfold plainSignature
  cases entry.kind <;> exact made_common entry name

theorem made_resourceSignature (entry : Signature) (resource : String) :
    Made (resourceSignature entry resource) := rfl

/-- The target of an entry carries the name of its source. -/
theorem keeps_target (entry : Signature) (name : String) :
    Keeps (fun made => Made made.1) (target entry name) := by
  refine keeps_get.andThen fun s => ?_
  split
  · refine keeps_get.andThen fun s => ?_
    exact Keeps.pure (made_plainSignature s.context entry name)
  · split
    · refine (keeps_modifyContext _).andThen fun _ => ?_
      exact Keeps.pure (made_resourceSignature entry _)
    · refine (keeps_modifyContext _).andThen fun _ => keeps_get.andThen fun s => ?_
      exact Keeps.pure (made_plainSignature s.context entry name)

/-- A patch does not change the name of the source. -/
theorem patched_sourceName {patch : Patch} {s : Signature} {entry : Entry}
    (h : patched patch s = .valid entry) : entry.sourceName = s.sourceName := by
  unfold patched at h
  obtain ⟨withDoc, members, hdoc, -, rfl⟩ := Checked.exists_of_seq h
  obtain ⟨withKind, doc, hkind, -, rfl⟩ := Checked.exists_of_seq hdoc
  obtain ⟨withName, kind, hname, -, rfl⟩ := Checked.exists_of_seq hkind
  obtain ⟨combine, name, hcombine, -, rfl⟩ := Checked.exists_of_seq hname
  cases hcombine
  rfl

/-- A patched target carries the name of its source. -/
theorem keeps_applyPatch (key : String) {s : Signature} (hs : Made s) :
    Keeps (fun entry => Made entry.toSignature) (applyPatch key s) := by
  refine keeps_get.andThen fun session => ?_
  split
  · exact Keeps.pure hs
  · rename_i patch _
    refine (keeps_modify fun session => ?_).andThen fun _ => ?_
    · rw [FileRules.withoutPatches_setPatch]
    · split
      · rename_i entry hentry
        refine Keeps.pure ?_
        rw [Made, patched_sourceName hentry]
        exact hs
      · exact keeps_throw _

/-- Registering a target keeps everything. -/
theorem keeps_registerResult (entry : Signature) :
    Keeps (fun _ => True) (registerResult entry) := by
  unfold registerResult
  split
  · split
    · exact Keeps.pure trivial
    · exact keeps_modifyContext _
  · exact Keeps.pure trivial

/-- What a step gives for an entry: nothing, or an entry that carries the name of its source. -/
def MadeIfAny (result : Option Entry) : Prop := ∀ entry ∈ result, Made entry.toSignature

theorem madeIfAny_none : MadeIfAny none := by
  rintro entry ⟨⟩

theorem madeIfAny_some {entry : Entry} (h : Made entry.toSignature) : MadeIfAny (some entry) := by
  rintro _ ⟨⟩
  exact h

theorem keeps_documented [CharacterNames] (rules : Rules) {result : Entry}
    (h : Made result.toSignature) : Keeps MadeIfAny (documented rules result) :=
  (keeps_ofRule _).andThen fun _ => Keeps.pure (madeIfAny_some h)

/-- A target that is accepted carries the name of its source. -/
theorem keeps_accept [CharacterNames] (rules : Rules) (isResource : Bool) {result : Entry}
    (h : Made result.toSignature) : Keeps MadeIfAny (accept rules isResource result) := by
  unfold accept
  split
  · exact keeps_documented rules h
  · split
    · exact (keeps_note _ _).andThen fun _ => Keeps.pure madeIfAny_none
    · exact (keeps_registerResult _).andThen fun _ => keeps_documented rules h

/-- The target of an entry carries the name of its source. -/
theorem keeps_transformEntry [CharacterNames] (rules : Rules) (overrides : Bool) (entry : Entry) :
    Keeps MadeIfAny (transformEntry rules overrides entry) := by
  unfold transformEntry
  split
  · rename_i hmade
    exact Keeps.pure (madeIfAny_some hmade)
  · refine (keeps_ofRule _).andThen fun name => keeps_get.andThen fun session => ?_
    split
    · exact (keeps_note _ _).andThen fun _ => Keeps.pure madeIfAny_none
    · refine (keeps_target _ name).bind fun (signature, isResource) hmade => ?_
      dsimp only
      split
      · exact (keeps_applyPatch name hmade).bind fun result h => keeps_accept rules isResource h
      · exact keeps_accept rules isResource hmade

/-- The targets of overloads carry the names of their sources. -/
theorem keeps_transformOverloads [CharacterNames] (rules : Rules) (entries : List Entry) :
    Keeps (fun results => ∀ entry ∈ results, Made entry.toSignature)
      (transformOverloads rules entries) := by
  induction entries with
  | nil => exact Keeps.pure (List.forall_mem_nil _)
  | cons entry entries ih =>
    refine (keeps_transformEntry rules false entry).bind fun result hresult => ?_
    refine ih.bind fun later hlater => Keeps.pure fun made hmem => ?_
    rcases List.mem_append.1 hmem with hmem | hmem
    · exact hresult made (Option.mem_toList.1 hmem)
    · exact hlater made hmem

/-! ## Tables -/

/-- A slot of a target: an entry under its own key, or overloads under the name of the first. -/
def SlotMade (key : String) : Slot → Prop
  | .single entry => entry.key = key ∧ Made entry.toSignature
  | .overloads first more => first.name = key ∧ ∀ entry ∈ first :: more, Made entry.toSignature

/-- A table of a target. -/
structure Settled (table : Entries) : Prop where
  nodup : (Keyed.keys table).Nodup
  slots : ∀ pair ∈ table, SlotMade pair.1 pair.2

theorem settled_nil : Settled [] := ⟨List.nodup_nil, List.forall_mem_nil _⟩

/-- A slot of a target goes into a table of the target. -/
theorem Settled.insert {table : Entries} {key : String} {slot : Slot} (h : Settled table)
    (hslot : SlotMade key slot) : Settled (Keyed.insert table key slot) := by
  refine ⟨Keyed.nodup_keys_insert h.nodup, fun pair hpair => ?_⟩
  rcases Keyed.mem_insert_of_nodup h.nodup hpair with rfl | ⟨hmem, -⟩
  · exact hslot
  · exact h.slots pair hmem

/-- Slots of a target go into a table of the target. -/
theorem Settled.insertAll {table pairs : Entries} (h : Settled table)
    (hpairs : ∀ pair ∈ pairs, SlotMade pair.1 pair.2) : Settled (Keyed.insertAll table pairs) := by
  unfold Keyed.insertAll
  induction pairs generalizing table with
  | nil => exact h
  | cons pair pairs ih =>
    obtain ⟨hpair, hrest⟩ := List.forall_mem_cons.1 hpairs
    exact ih (h.insert hpair) hrest

/-- An entry of a target goes into a table of the target. -/
theorem keeps_addResult {results : Entries} (key : String) {entry : Entry}
    (h : Settled results) (hentry : Made entry.toSignature) :
    Keeps Settled (addResult results key entry) := by
  unfold addResult
  split
  · exact (keeps_note _ _).andThen fun _ => Keeps.pure h
  · exact Keeps.pure (h.insert ⟨rfl, hentry⟩)

/-- Overloads of a target go into a table of the target. -/
theorem settled_addOverloads {results : Entries} {entries : List Entry} (h : Settled results)
    (hentries : ∀ entry ∈ entries, Made entry.toSignature) :
    Settled (addOverloads results entries) := by
  cases entries with
  | nil => exact h
  | cons first more =>
    -- unlike single entries, overloads stand under a plain name
    show Settled (Keyed.insertNew results first.name (.overloads first more))
    unfold Keyed.insertNew
    split
    · exact h
    · have hslot : SlotMade first.name (.overloads first more) := ⟨rfl, hentries⟩
      exact h.insert hslot

/-- The slots of a table are transformed into a table of the target. -/
theorem keeps_transformEntries [CharacterNames] (rules : Rules) {results : Entries}
    (table : Entries) (h : Settled results) :
    Keeps Settled (transformEntries rules results table) := by
  induction table generalizing results with
  | nil => exact Keeps.pure h
  | cons pair table ih =>
    obtain ⟨key, slot⟩ := pair
    cases slot with
    | single entry =>
      refine (keeps_transformEntry rules true entry).bind fun result hresult => ?_
      cases result with
      | none => exact ih h
      | some result => exact (keeps_addResult key h (hresult result rfl)).bind fun _ => ih
    | overloads first more =>
      refine (keeps_transformOverloads rules (first :: more)).bind fun entries hentries => ?_
      exact ih (settled_addOverloads h hentries)

/-! ## Fixed entries -/

/-- A fixed entry makes a slot of a target. -/
theorem slotMade_fixed (entry : Entry) : SlotMade entry.key (.single (fixed entry)) := by
  unfold fixed
  split
  · rename_i hmade
    exact ⟨rfl, hmade⟩
  · exact ⟨rfl, rfl⟩

/-- The fixed entries of a file make a table of the target. -/
theorem settled_fixedTable (file : FileRules) : Settled (fixedTable file) := by
  refine settled_nil.insertAll fun pair hpair => ?_
  obtain ⟨entry, -, rfl⟩ := List.mem_map.1 hpair
  exact slotMade_fixed entry

/-- The fixed entries come first, and then the others under keys of their own. -/
theorem mergeFixed_eq (table : Entries) {others : Entries} (h : (Keyed.keys others).Nodup) :
    (mergeFixed table others).1 =
      table ++ others.filter fun pair => !Keyed.contains table pair.1 := by
  induction others generalizing table with
  | nil => exact (List.append_nil table).symm
  | cons pair others ih =>
    obtain ⟨key, slot⟩ := pair
    obtain ⟨hkey, hothers⟩ := List.nodup_cons.1 h
    rw [mergeFixed]
    split
    · rename_i hmem
      rw [List.filter_cons_of_neg (by simp [hmem])]
      exact ih table hothers
    · rename_i hnot
      rw [Bool.not_eq_true] at hnot
      rw [ih _ hothers, List.filter_cons_of_pos (by simp [hnot]),
        Keyed.insert_of_not_mem (Keyed.contains_eq_false_iff.1 hnot), List.append_assoc,
        List.singleton_append]
      congr 2
      -- the key just put in is the key of none of the others
      refine List.filter_congr fun pair hpair => ?_
      have hne : pair.1 ≠ key := by
        intro heq
        have hmem := Keyed.mem_keys hpair
        rw [heq] at hmem
        exact hkey hmem
      rw [Keyed.contains_append_singleton hne]

/-- Two tables of a target make one when they are merged. -/
theorem settled_mergeFixed {table others : Entries} (htable : Settled table)
    (hothers : Settled others) : Settled (mergeFixed table others).1 := by
  rw [mergeFixed_eq table hothers.nodup]
  refine ⟨?_, fun pair hpair => ?_⟩
  · rw [Keyed.keys_append, List.nodup_append]
    refine ⟨htable.nodup, hothers.nodup.sublist (List.filter_sublist.map _), ?_⟩
    intro key hkey other hother
    obtain ⟨pair, hpair, rfl⟩ := List.mem_map.1 hother
    rintro rfl
    have hnot := (List.mem_filter.1 hpair).2
    rw [Keyed.contains_iff.2 hkey] at hnot
    cases hnot
  · rcases List.mem_append.1 hpair with hmem | hmem
    · exact htable.slots pair hmem
    · exact hothers.slots pair (List.mem_filter.1 hmem).1

/-- Putting the fixed entries into a table that has them changes nothing. -/
theorem mergeFixed_mergeFixed {table others : Entries} (htable : Settled table)
    (hothers : Settled others) :
    (mergeFixed table (mergeFixed table others).1).1 = (mergeFixed table others).1 := by
  rw [mergeFixed_eq table (settled_mergeFixed htable hothers).nodup,
    mergeFixed_eq table hothers.nodup, List.filter_append, List.filter_filter]
  have hown : table.filter (fun pair => !Keyed.contains table pair.1) = [] := by
    refine List.filter_eq_nil_iff.2 fun pair hpair => ?_
    rw [Keyed.contains_iff.2 (Keyed.mem_keys hpair)]
    decide
  rw [hown, List.nil_append]
  simp only [Bool.and_self]

/-- A table of a target that is merged into the empty one stays as it is. -/
theorem mergeFixed_nil_of_settled {table : Entries} (h : Settled table) :
    (mergeFixed [] table).1 = table := by
  rw [mergeFixed_eq [] h.nodup, List.nil_append]
  exact List.filter_eq_self.2 fun _ _ => rfl

end Transform

end HeaderApi
