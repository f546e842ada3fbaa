import HeaderApi.Proofs.Results

/-!
# Properties of steps

A property of steps that passes to steps one after the other holds of the steps of a file when it
holds of what those consist of: log lines, changes of the type maps, patches, failures, and looks at
the session.  The walk over an entry, a table and a file is made once, for all such properties.
-/

namespace HeaderApi

/-- What does not look at the patches is the same for rules that differ in them only. -/
theorem FileRules.apply_congr {file file' : FileRules} {β : Type _} (f : FileRules → β)
    (hf : ∀ file, f file.withoutPatches = f file)
    (h : file'.withoutPatches = file.withoutPatches) : f file' = f file := by
  rw [← hf, h, hf]

namespace Transform

/-- A property of steps that passes from the parts of a step to the whole.  The step that gives an
entry its types is only asked for entries that are allowed. -/
structure Compositional (P : {α : Type} → Step α → Prop) (allowed : Signature → Prop) : Prop where
  pure {α : Type} (a : α) : P (pure a : Step α)
  bind {α β : Type} {x : Step α} {f : α → Step β} (hx : P x) (hf : ∀ a, P (f a)) : P (x >>= f)
  throw {α : Type} (e : Error) : P (throw e : Step α)
  note (level : Level) (text : String) : P (note level text)
  registerAlias (type name : String) : P (modifyContext fun c => c.registerAlias type name)
  registerResource (type name : String) : P (modifyContext fun c => c.registerResource type name)
  warn (m : Mismatch) : P (modifyContext fun c => c.warn m)
  applyPatch (key : String) (s : Signature) : P (applyPatch key s)
  /-- A step may look at the rules of the file, but not at the patches. -/
  get_bind {β : Type} {f : Session → Step β} (hf : ∀ s, P (f s))
    (hsame : ∀ s s', s'.file.withoutPatches = s.file.withoutPatches → f s' = f s) : P (get >>= f)
  plainSignature {entry : Signature} (hentry : allowed entry) (name : String) :
    P (do return (plainSignature (← get).context entry name, false))

variable {P : {α : Type} → Step α → Prop} {allowed : Signature → Prop}

/-! ## Entries -/

theorem Compositional.ofRule {α : Type} (h : Compositional P allowed) (x : Except PatternError α) :
    P (ofRule x) := by
  cases x with
  | ok a => exact h.pure a
  | error e => exact h.throw _

/-- The property holds for the step that gives an allowed entry its target. -/
theorem Compositional.target (h : Compositional P allowed) {entry : Signature}
    (hentry : allowed entry) (name : String) : P (target entry name) := by
  refine h.get_bind (fun s => ?_) fun s s' hfile => ?_
  · split
    · exact h.plainSignature hentry name
    · split
      · exact h.bind (h.registerResource _ _) fun _ => h.pure _
      · exact h.bind (h.warn _) fun _ => h.plainSignature hentry name
  · dsimp only
    rw [FileRules.apply_congr ruleFor (fun _ => rfl) hfile]

/-- The property holds for the step that registers a target. -/
theorem Compositional.registerResult (h : Compositional P allowed) (entry : Signature) :
    P (registerResult entry) := by
  unfold Transform.registerResult
  split
  · split
    · exact h.pure ()
    · exact h.registerAlias _ _
  · exact h.pure ()

section

variable [CharacterNames]

theorem Compositional.documented (h : Compositional P allowed) (rules : Rules) (result : Entry) :
    P (documented rules result) :=
  h.bind (h.ofRule _) fun _ => h.pure _

/-- The property holds for the step that accepts a target. -/
theorem Compositional.accept (h : Compositional P allowed) (rules : Rules) (isResource : Bool)
    (result : Entry) : P (accept rules isResource result) := by
  unfold Transform.accept
  split
  · exact h.documented rules result
  · split
    · exact h.bind (h.note _ _) fun _ => h.pure _
    · exact h.bind (h.registerResult _) fun _ => h.documented rules result

/-- **One entry.** -/
theorem Compositional.transformEntry (h : Compositional P allowed) (rules : Rules)
    (overrides : Bool) {entry : Entry} (hentry : allowed entry.toSignature) :
    P (transformEntry rules overrides entry) := by
  unfold Transform.transformEntry
  split
  · exact h.pure _
  · refine h.bind (h.ofRule _) fun name => h.get_bind (fun s => ?_) fun s s' hfile => ?_
    · split
      · exact h.bind (h.note _ _) fun _ => h.pure _
      · refine h.bind (h.target hentry name) fun (signature, isResource) => ?_
        dsimp only
        split
        · exact h.bind (h.applyPatch name signature) fun _ => h.accept rules isResource _
        · exact h.accept rules isResource _
    · dsimp only
      rw [FileRules.apply_congr isExcluded (fun _ => rfl) hfile]

/-- The property holds for the steps of allowed overloads. -/
theorem Compositional.transformOverloads (h : Compositional P allowed) (rules : Rules)
    {entries : List Entry} (hentries : ∀ entry ∈ entries, allowed entry.toSignature) :
    P (transformOverloads rules entries) := by
  induction entries with
  | nil => exact h.pure _
  | cons entry entries ih =>
    obtain ⟨hentry, hlater⟩ := List.forall_mem_cons.1 hentries
    refine h.bind (h.transformEntry rules false hentry) fun _ => ?_
    exact h.bind (ih hlater) fun _ => h.pure _

/-! ## Tables and files -/

omit [CharacterNames] in
theorem Compositional.addResult (h : Compositional P allowed) (results : Entries) (key : String)
    (entry : Entry) : P (addResult results key entry) := by
  unfold Transform.addResult
  split
  · exact h.bind (h.note _ _) fun _ => h.pure _
  · exact h.pure _

/-- The property holds for the steps of a table of allowed entries. -/
theorem Compositional.transformEntries (h : Compositional P allowed) (rules : Rules)
    (results : Entries) {table : Entries}
    (htable : ∀ entry ∈ table.toList, allowed entry.toSignature) :
    P (transformEntries rules results table) := by
  induction table generalizing results with
  | nil => exact h.pure _
  | cons pair table ih =>
    obtain ⟨key, slot⟩ := pair
    rw [Entries.toList_cons, List.forall_mem_append] at htable
    obtain ⟨hslot, hrest⟩ := htable
    cases slot with
    | single entry =>
      have hentry : allowed entry.toSignature := hslot entry (List.mem_singleton.2 rfl)
      refine h.bind (h.transformEntry rules true hentry) fun result => ?_
      cases result with
      | none => exact ih results hrest
      | some result => exact h.bind (h.addResult results key result) fun _ => ih _ hrest
    | overloads first more =>
      exact h.bind (h.transformOverloads rules hslot) fun made =>
        ih (addOverloads results made) hrest

omit [CharacterNames] in
theorem Compositional.forM_note (h : Compositional P allowed) (level : Level)
    (text : String → String) (keys : List String) :
    P (keys.forM fun key => Transform.note level (text key)) := by
  induction keys with
  | nil => exact h.pure _
  | cons key keys ih => exact h.bind (h.note level (text key)) fun _ => ih

/-- **One file.** -/
theorem Compositional.fileSteps (h : Compositional P allowed) (rules : Rules) {source : Header}
    (hsource : ∀ entry ∈ source.entries.toList, allowed entry.toSignature) (name : String) :
    P (fileSteps rules source name) := by
  refine h.get_bind (fun s => ?_) fun s s' hfile => ?_
  · refine h.bind (h.note _ _) fun _ => ?_
    refine h.bind (h.transformEntries rules [] hsource) fun results => ?_
    refine h.bind (h.forM_note _ _ _) fun _ => ?_
    exact h.bind (h.ofRule _) fun _ => h.pure _
  -- What a file takes from its rules besides the patches is the same.
  · dsimp only
    rw [FileRules.apply_congr fixedTable (fun _ => rfl) hfile,
      FileRules.apply_congr FileRules.doc (fun _ => rfl) hfile,
      FileRules.apply_congr FileRules.includes (fun _ => rfl) hfile,
      FileRules.apply_congr FileRules.localIncludes (fun _ => rfl) hfile]

end

end Transform

end HeaderApi
