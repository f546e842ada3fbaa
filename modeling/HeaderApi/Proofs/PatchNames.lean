import HeaderApi.Proofs.RunAgain

/-!
# The names that patches give

By itself an entry takes its default name, or the name of its resource with `Base` behind it.  A
patch without a name is given one by the first single entry of a run that finds it: the name that
this entry takes by itself.  From then on every entry that finds the patch is given that name.  So
an entry keeps the name that it takes by itself exactly when the first one takes the same name.
-/

namespace HeaderApi

open Text

namespace Transform

/-! ## The name that an entry takes by itself -/

/-- The name that an entry takes without a patch, given its default name. -/
def ownName (file : FileRules) (entry : Signature) (name : String) : String :=
  match (ruleFor file entry name).filter (fits entry) with
  | some rule => resourceName rule name ++ "Base"
  | none => name

/-- A plain target has the name that it is given. -/
theorem name_plainSignature (context : Context) (entry : Signature) (name : String) :
    (plainSignature context entry name).name = name := by
  unfold plainSignature
  cases entry.kind <;> rfl

/-- What the target of an entry is: a resource, which is made known, or not. -/
theorem target_cases {entry signature : Signature} {name : String} {isResource : Bool}
    {s s' : Session} (h : target entry name s = .ok (signature, isResource) s') :
    s'.file = s.file ∧
      ((∃ rule, (ruleFor s.file entry name).filter (fits entry) = some rule ∧
          isResource = true ∧ signature = resourceSignature entry (resourceName rule name) ∧
          s'.context = s.context.registerResource entry.name (resourceName rule name)) ∨
        ((ruleFor s.file entry name).filter (fits entry) = none ∧ isResource = false ∧
          signature = plainSignature s.context entry name ∧
          ∃ warnings, s'.context = { s.context with warnings })) := by
  obtain ⟨_, _, ⟨⟩, h⟩ := exists_of_bind h
  -- A rule makes a resource only of an entry that fits it; else the target is plain.
  cases hrule : ruleFor s.file entry name with
  | none =>
    rw [hrule] at h
    cases h
    exact ⟨rfl, Or.inr ⟨rfl, rfl, rfl, _, rfl⟩⟩
  | some rule =>
    rw [hrule] at h
    dsimp only at h
    cases hfits : fits entry rule with
    | true =>
      rw [hfits, if_pos rfl] at h
      cases h
      rw [Option.filter_some, hfits]
      exact ⟨rfl, Or.inl ⟨_, rfl, rfl, rfl, rfl⟩⟩
    | false =>
      rw [hfits, if_neg (by decide)] at h
      cases h
      rw [Option.filter_some, hfits]
      exact ⟨rfl, Or.inr ⟨rfl, rfl, rfl, _, rfl⟩⟩

/-- The target of an entry has the name of the entry in its file, whose rules stay. -/
theorem target_name {entry signature : Signature} {name : String} {isResource : Bool}
    {s s' : Session} (h : target entry name s = .ok (signature, isResource) s') :
    signature.name = ownName s.file entry name ∧ s'.file = s.file := by
  obtain ⟨hfile, ⟨rule, hrule, -, rfl, -⟩ | ⟨hnone, -, rfl, -⟩⟩ := target_cases h
  · refine ⟨?_, hfile⟩
    rw [ownName, hrule]
    rfl
  · refine ⟨?_, hfile⟩
    rw [ownName, hnone]
    exact name_plainSignature _ _ _

/-- The name that an entry has behind its patch. -/
theorem patched_name {patch : Patch} {name : String} (hname : patch.name = .given name)
    {signature : Signature} {entry : Entry} (h : patched patch signature = .valid entry) :
    entry.name = name := by
  unfold patched at h
  obtain ⟨withDoc, members, hdoc, -, rfl⟩ := Checked.exists_of_seq h
  obtain ⟨withKind, doc, hkind, -, rfl⟩ := Checked.exists_of_seq hdoc
  obtain ⟨withName, kind, hnamed, -, rfl⟩ := Checked.exists_of_seq hkind
  obtain ⟨combine, text, hcombine, htext, rfl⟩ := Checked.exists_of_seq hnamed
  cases hcombine
  rw [hname] at htext
  cases htext
  rfl

/-- Making a result known either does nothing or registers an alias. -/
theorem registerResult_cases (entry : Signature) :
    registerResult entry = pure () ∨
      ∃ type, registerResult entry = modifyContext fun c => c.registerAlias type entry.name := by
  unfold registerResult
  split
  · split
    · exact Or.inl rfl
    · exact Or.inr ⟨_, rfl⟩
  · exact Or.inl rfl

/-- Registering a target leaves the rules of the file as they are. -/
theorem registerResult_file {entry : Signature} {s s' : Session}
    (h : registerResult entry s = .ok () s') : s'.file = s.file := by
  rcases registerResult_cases entry with hnothing | ⟨type, halias⟩
  · rw [hnothing] at h
    cases h
    rfl
  · rw [halias] at h
    cases h
    rfl

/-- The context after an alias is made known. -/
def registered (result : Signature) (c : Context) : Context :=
  match result.kind, result.type with
  | .typeAlias, some type =>
    if type = result.name ∨ type = "" then c else c.registerAlias type result.name
  | _, _ => c

/-- Registering a target adds its types to the context. -/
theorem registerResult_context {result : Signature} {s s' : Session}
    (h : registerResult result s = .ok () s') (hself : isSelfAlias result = false) :
    s'.context = registered result s.context := by
  unfold registerResult at h
  unfold isSelfAlias at hself
  unfold registered
  generalize result.kind = kind at h hself ⊢
  generalize result.type = type at h hself ⊢
  cases kind with
  | typeAlias =>
    cases type with
    | none =>
      cases h
      rfl
    | some type =>
      dsimp only at h ⊢
      by_cases hempty : type = ""
      · rw [if_pos hempty] at h
        cases h
        rw [if_pos (Or.inr hempty)]
      · rw [if_neg hempty] at h
        cases h
        rw [if_neg]
        rintro (rfl | hsame)
        · simp at hself
        · exact hempty hsame
  | _ =>
    cases h
    rfl

/-- An alias of its own name registers nothing. -/
theorem registered_of_self {result : Signature} (h : isSelfAlias result = true) (c : Context) :
    registered result c = c := by
  unfold isSelfAlias at h
  unfold registered
  split
  · rename_i type hkind htype
    rw [htype, Bool.and_eq_true, decide_eq_true_eq, decide_eq_true_eq] at h
    rw [if_pos (Or.inl (Option.some.inj h.2).symm)]
  · rfl

section

variable [CharacterNames]

/-- The doc rules change nothing of a target but its doc. -/
theorem documented_cases {rules : Rules} {made : Entry} {result : Option Entry} {s s' : Session}
    (h : documented rules made s = .ok result s') :
    s' = s ∧ ∀ entry ∈ result, ∃ doc, entry = { made with doc } := by
  obtain ⟨doc, between, hdoc, h⟩ := exists_of_bind h
  generalize Replacement.applyAll rules.allDocRules made.doc.toList = applied at hdoc
  cases applied with
  | error e => cases hdoc
  | ok text =>
    cases hdoc
    cases h
    refine ⟨rfl, ?_⟩
    rintro _ ⟨⟩
    exact ⟨_, rfl⟩

/-- What is taken in keeps all but its doc; what is no resource is made known. -/
theorem accept_cases {rules : Rules} {isResource : Bool} {made : Entry} {result : Option Entry}
    {s s' : Session} (h : accept rules isResource made s = .ok result s') :
    s'.file = s.file ∧
      s'.context = (if isResource then s.context else registered made.toSignature s.context) ∧
      ∀ entry ∈ result, ∃ doc, entry = { made with doc } := by
  unfold accept at h
  cases isResource with
  | true =>
    rw [if_pos rfl] at h
    obtain ⟨rfl, hresult⟩ := documented_cases h
    exact ⟨rfl, rfl, hresult⟩
  | false =>
    rw [if_neg (by decide)] at h
    -- An alias of itself is left out; every other entry that is no resource is registered first.
    cases hself : isSelfAlias made.toSignature with
    | true =>
      rw [hself, if_pos rfl] at h
      cases h
      refine ⟨rfl, (registered_of_self hself _).symm, ?_⟩
      rintro _ ⟨⟩
    | false =>
      rw [hself, if_neg (by decide)] at h
      obtain ⟨_, between, hregister, h⟩ := exists_of_bind h
      obtain ⟨rfl, hresult⟩ := documented_cases h
      exact ⟨registerResult_file hregister, registerResult_context hregister hself, hresult⟩

/-- What is taken in keeps its name, and the rules of the file stay as they are. -/
theorem accept_name {rules : Rules} {isResource : Bool} {made : Entry} {result : Option Entry}
    {s s' : Session} (h : accept rules isResource made s = .ok result s') :
    (∀ entry ∈ result, entry.name = made.name) ∧ s'.file = s.file := by
  obtain ⟨hfile, -, hresult⟩ := accept_cases h
  refine ⟨fun entry hentry => ?_, hfile⟩
  obtain ⟨doc, rfl⟩ := hresult entry hentry
  rfl

/-! ## One entry -/

/-- The default name under which an entry looks for a patch.  A result of a former run looks for
none, and neither does an entry that is left out. -/
def lookupName? (rules : Rules) (file : FileRules) (entry : Entry) : Option String :=
  if entry.sourceName.isSome then none
  else
    match rules.defaultName entry.name with
    | .error _ => none
    | .ok name => if isExcluded file entry.toSignature name then none else some name

/-- The steps of one entry: it passes, or it is left out, or it goes through all of them. -/
theorem transformEntry_cases {rules : Rules} {overrides : Bool} {entry : Entry}
    {result : Option Entry} {s s' : Session}
    (h : transformEntry rules overrides entry s = .ok result s') :
    (lookupName? rules s.file entry = none ∧ s'.file = s.file ∧ s'.context = s.context ∧
        (result = none ∨ entry.sourceName.isSome = true ∧ result = some entry)) ∨
      ∃ name signature isResource between made after,
        lookupName? rules s.file entry = some name ∧
        target entry.toSignature name s = .ok (signature, isResource) between ∧
        (if overrides then applyPatch name signature else pure ⟨signature, none⟩ : Step Entry)
          between = .ok made after ∧
        accept rules isResource made after = .ok result s' := by
  unfold transformEntry at h
  unfold lookupName?
  split at h
  · rename_i hmade
    cases h
    rw [if_pos hmade]
    exact Or.inl ⟨rfl, rfl, rfl, Or.inr ⟨hmade, rfl⟩⟩
  · rename_i hmade
    rw [if_neg hmade]
    obtain ⟨name, begun, hname, h⟩ := exists_of_bind h
    cases hdefault : rules.defaultName entry.name with
    | error e =>
      rw [hdefault] at hname
      cases hname
    | ok default =>
      rw [hdefault] at hname
      cases hname
      obtain ⟨_, _, ⟨⟩, h⟩ := exists_of_bind h
      dsimp only
      split at h
      · rename_i hexcluded
        cases h
        rw [if_pos hexcluded]
        exact Or.inl ⟨rfl, rfl, rfl, Or.inl rfl⟩
      · rename_i hexcluded
        rw [if_neg hexcluded]
        obtain ⟨⟨signature, isResource⟩, between, htarget, h⟩ := exists_of_bind h
        refine Or.inr ⟨name, signature, isResource, between, ?_⟩
        cases overrides with
        | true =>
          obtain ⟨made, after, hmade, h⟩ := exists_of_bind h
          exact ⟨made, after, rfl, htarget, hmade, h⟩
        | false =>
          obtain ⟨made, after, hmade, h⟩ := exists_of_bind h
          exact ⟨made, after, rfl, htarget, hmade, h⟩

/-- Without patches an entry takes its own name, and the rules of its file stay as they are. -/
theorem transformEntry_unpatched {rules : Rules} {entry : Entry} {result : Option Entry}
    {s s' : Session} (h : transformEntry rules false entry s = .ok result s') :
    s'.file = s.file ∧ ∀ name, lookupName? rules s.file entry = some name →
      ∀ made ∈ result, made.name = ownName s.file entry.toSignature name := by
  rcases transformEntry_cases h with ⟨hnone, hfile, -⟩ |
    ⟨name, signature, isResource, between, made, after, hname, htarget, hmade, haccept⟩
  · refine ⟨hfile, fun name hsome => ?_⟩
    rw [hnone] at hsome
    cases hsome
  · obtain ⟨hown, hbetween⟩ := target_name htarget
    obtain ⟨hresult, hafter⟩ := accept_name haccept
    cases hmade
    refine ⟨hafter.trans hbetween, fun other hother entry hentry => ?_⟩
    rw [hname] at hother
    cases hother
    rw [hresult entry hentry]
    exact hown

/-- An entry that finds a patch names it, if it has no name, and takes the name of the patch. -/
theorem transformEntry_patched {rules : Rules} {entry : Entry} {result : Option Entry}
    {s s' : Session} (h : transformEntry rules true entry s = .ok result s') {name : String}
    (hname : lookupName? rules s.file entry = some name) {patch : Patch}
    (hpatch : s.file.patch? name = some patch) :
    let patch' := withName patch (ownName s.file entry.toSignature name)
    s'.file = s.file.setPatch name patch' ∧ ∀ made ∈ result, patch'.name = .given made.name := by
  rcases transformEntry_cases h with ⟨hnone, -⟩ |
    ⟨other, signature, isResource, between, made, after, hother, htarget, hmade, haccept⟩
  · rw [hnone] at hname
    cases hname
  · rw [hname] at hother
    cases hother
    -- The target leaves the patches as they are, so the patch found is the one that applies.
    obtain ⟨hown, hbetween⟩ := target_name htarget
    obtain ⟨hresult, hafter⟩ := accept_name haccept
    rw [← hbetween] at hpatch
    rw [if_pos rfl] at hmade
    rcases applyPatch_cases hmade with ⟨hnone, -, -⟩ | ⟨found, hfound, hvalid, rfl⟩
    · rw [hnone] at hpatch
      cases hpatch
    · rw [hfound] at hpatch
      cases hpatch
      rw [hown] at hvalid hafter
      rw [hbetween] at hafter
      refine ⟨hafter, fun entry' hentry => ?_⟩
      obtain ⟨given, hgiven⟩ := exists_name_withName patch (ownName s.file entry.toSignature name)
      rw [hresult entry' hentry, patched_name hgiven hvalid]
      exact hgiven

/-- An entry that finds no patch leaves the rules of its file as they are. -/
theorem transformEntry_of_not_found {rules : Rules} {entry : Entry} {result : Option Entry}
    {s s' : Session} (h : transformEntry rules true entry s = .ok result s')
    (hnone : ∀ name, lookupName? rules s.file entry = some name → s.file.patch? name = none) :
    s'.file = s.file := by
  rcases transformEntry_cases h with ⟨-, hfile, -⟩ |
    ⟨name, signature, isResource, between, made, after, hname, htarget, hmade, haccept⟩
  · exact hfile
  · obtain ⟨-, hbetween⟩ := target_name htarget
    obtain ⟨-, hafter⟩ := accept_name haccept
    rw [if_pos rfl] at hmade
    rcases applyPatch_cases hmade with ⟨-, -, rfl⟩ | ⟨patch, hpatch, -, -⟩
    · exact hafter.trans hbetween
    · rw [hbetween, hnone name hname] at hpatch
      cases hpatch

/-- Overloads leave the rules of the file as they are. -/
theorem transformOverloads_file {rules : Rules} {entries results : List Entry} {s s' : Session}
    (h : transformOverloads rules entries s = .ok results s') : s'.file = s.file := by
  induction entries generalizing s results with
  | nil =>
    cases h
    rfl
  | cons entry entries ih =>
    obtain ⟨result, between, hentry, h⟩ := exists_of_bind h
    obtain ⟨later, after, hlater, h⟩ := exists_of_bind h
    cases h
    exact (ih hlater).trans (transformEntry_unpatched hentry).1

end

/-- A result is added to those before, and nothing else changes. -/
theorem addResult_cases {results out : Entries} {key : String} {entry : Entry} {s s' : Session}
    (h : addResult results key entry s = .ok out s') :
    s'.file = s.file ∧ s'.context = s.context ∧
      ∀ made ∈ out.toList, made = entry ∨ made ∈ results.toList := by
  unfold addResult at h
  split at h
  · cases h
    exact ⟨rfl, rfl, fun made hmem => Or.inr hmem⟩
  · cases h
    refine ⟨rfl, rfl, fun made hmem => ?_⟩
    exact (Entries.mem_toList_insert hmem).imp List.mem_singleton.1 id

/-! ## Visits -/

/-- A single entry of an interface, with the key of the rules for its file. -/
structure Visit where
  key : Option String
  entry : Entry

/-- The single entries of a table in order. -/
def singles (table : Entries) : List Entry :=
  table.filterMap fun pair =>
    match pair.2 with
    | .single entry => some entry
    | .overloads _ _ => none

/-- The visits of a table in the file that has the rules under a key. -/
def visitsOf (key : Option String) (table : Entries) : List Visit :=
  (singles table).map fun entry => ⟨key, entry⟩

section

variable [CharacterNames]

/-- The visits of a run over files in order. -/
def visits (rules : Rules) (files : Keyed Header) : List Visit :=
  files.flatMap fun pair =>
    match placed? rules pair.2.name with
    | some (key, _) => visitsOf key pair.2.entries
    | none => []

/-- Whether a visit looks for a patch under a default name in the rules under a key. -/
def Visit.looksFor (rules : Rules) (key : Option String) (name : String) (visit : Visit) : Bool :=
  visit.key = key && lookupName? rules (rules.fileRules key) visit.entry = some name

/-- The name that visits give to a patch: that of the first one which looks for it. -/
def givenName? (rules : Rules) (key : Option String) (name : String) (visits : List Visit) :
    Option String :=
  (visits.find? (Visit.looksFor rules key name)).map fun first =>
    ownName (rules.fileRules key) first.entry.toSignature name

omit [CharacterNames] in
/-- A patch that may be given a name. -/
def namedBy (given : Option String) (patch : Patch) : Patch :=
  given.elim patch (withName patch)

/-- The rules of a file after visits. -/
structure FileAfter (rules : Rules) (visits : List Visit) (key : Option String)
    (file : FileRules) : Prop where
  others : file.withoutPatches = (rules.fileRules key).withoutPatches
  patches : ∀ name, file.patch? name =
    ((rules.fileRules key).patch? name).map (namedBy (givenName? rules key name visits))

/-- The rules after visits. -/
structure RulesAfter (rules : Rules) (visits : List Visit) (rules' : Rules) : Prop where
  others : rules'.withoutPatches = rules.withoutPatches
  files : ∀ key, FileAfter rules visits key (rules'.fileRules key)

variable {rules rules' : Rules} {earlier : List Visit} {key : Option String}

/-- A name is given by the earlier entries or else by the later ones. -/
theorem givenName?_append (rules : Rules) (key : Option String) (name : String)
    (earlier later : List Visit) :
    givenName? rules key name (earlier ++ later) =
      (givenName? rules key name earlier).or (givenName? rules key name later) := by
  unfold givenName?
  rw [List.find?_append]
  cases earlier.find? (Visit.looksFor rules key name) with
  | none => rfl
  | some first => rfl

/-- Entries that do not look for a patch give it no name. -/
theorem givenName?_eq_none {name : String} {later : List Visit}
    (h : ∀ visit ∈ later, visit.looksFor rules key name = false) :
    givenName? rules key name later = none := by
  unfold givenName?
  rw [List.find?_eq_none.2 fun visit hvisit => by simp [h visit hvisit]]
  rfl

omit [CharacterNames] in
/-- The first name that is given to a patch stays. -/
theorem namedBy_or (first : Option String) (second : String) (patch : Patch) :
    namedBy (first.or (some second)) patch = withName (namedBy first patch) second := by
  cases first with
  | none => rfl
  | some first => exact (withName_withName patch first second).symm

theorem lookupName?_congr {file file' : FileRules}
    (h : file'.withoutPatches = file.withoutPatches) (rules : Rules) (entry : Entry) :
    lookupName? rules file' entry = lookupName? rules file entry := by
  unfold lookupName?
  rw [FileRules.apply_congr isExcluded (fun _ => rfl) h]

omit [CharacterNames] in
theorem ownName_congr {file file' : FileRules} (h : file'.withoutPatches = file.withoutPatches)
    (entry : Signature) (name : String) : ownName file' entry name = ownName file entry name := by
  unfold ownName
  rw [FileRules.apply_congr ruleFor (fun _ => rfl) h]

/-- Visits that do not look for the patches of a file leave its rules as they are. -/
theorem FileAfter.append {file : FileRules} (h : FileAfter rules earlier key file)
    {later : List Visit}
    (hlater : ∀ name, (rules.fileRules key).patch? name = none ∨
      ∀ visit ∈ later, visit.looksFor rules key name = false) :
    FileAfter rules (earlier ++ later) key file := by
  refine ⟨h.others, fun name => ?_⟩
  rw [h.patches name]
  rcases hlater name with hnone | hnot
  · rw [hnone]
    rfl
  · rw [givenName?_append, givenName?_eq_none hnot, Option.or_none]

/-- A patch of the rules for a file was there before any visit. -/
theorem FileAfter.exists_original {file : FileRules} (h : FileAfter rules earlier key file)
    {name : String} {patch : Patch} (hpatch : file.patch? name = some patch) :
    ∃ original, (rules.fileRules key).patch? name = some original ∧
      patch = namedBy (givenName? rules key name earlier) original := by
  have hold := h.patches name
  rw [hpatch] at hold
  cases horiginal : (rules.fileRules key).patch? name with
  | none =>
    rw [horiginal] at hold
    cases hold
  | some original =>
    rw [horiginal, Option.map_some, Option.some.injEq] at hold
    exact ⟨original, rfl, hold⟩

/-- A visit gives a name to the patch for which its entry looks. -/
theorem givenName?_visit {entry : Entry} {name : String}
    (hname : lookupName? rules (rules.fileRules key) entry = some name) (other : String) :
    givenName? rules key other [⟨key, entry⟩] =
      if name = other then some (ownName (rules.fileRules key) entry.toSignature name)
      else none := by
  split
  · rename_i heq
    subst heq
    unfold givenName?
    rw [List.find?_cons_of_pos (by simp [Visit.looksFor, hname])]
    rfl
  · rename_i hne
    refine givenName?_eq_none fun visit hvisit => ?_
    rw [List.mem_singleton.1 hvisit]
    simp [Visit.looksFor, hname, hne]

/-- One visit: the patch for which the entry looks is given a name, if it has none. -/
theorem FileAfter.transformEntry {s s' : Session} (h : FileAfter rules earlier key s.file)
    {entry : Entry} {result : Option Entry}
    (hrun : transformEntry rules true entry s = .ok result s') :
    FileAfter rules (earlier ++ [⟨key, entry⟩]) key s'.file := by
  have hlookup := lookupName?_congr h.others rules entry
  by_cases hfound : ∃ name patch, lookupName? rules s.file entry = some name ∧
      s.file.patch? name = some patch
  · obtain ⟨name, patch, hname, hpatch⟩ := hfound
    have hfile := (transformEntry_patched hrun hname hpatch).1
    rw [ownName_congr h.others] at hfile
    rw [hlookup] at hname
    refine ⟨?_, fun other => ?_⟩
    · rw [hfile, FileRules.withoutPatches_setPatch]
      exact h.others
    · rw [hfile, FileRules.patch?_setPatch hpatch, givenName?_append, givenName?_visit hname]
      split
      · rename_i heq
        subst heq
        obtain ⟨original, horiginal, hold⟩ := h.exists_original hpatch
        rw [horiginal, hold, Option.map_some, namedBy_or]
      · rw [Option.or_none, h.patches other]
  -- Without a patch nothing is written, and no patch of the rules is what the entry looks for.
  · have hfile : s'.file = s.file := by
      refine transformEntry_of_not_found hrun fun name hname => ?_
      cases hpatch : s.file.patch? name with
      | none => rfl
      | some patch => exact absurd ⟨name, patch, hname, hpatch⟩ hfound
    rw [hfile]
    refine h.append fun name => ?_
    cases horiginal : (rules.fileRules key).patch? name with
    | none => exact Or.inl rfl
    | some original =>
      refine Or.inr fun visit hvisit => ?_
      rw [List.mem_singleton.1 hvisit]
      have hnot : lookupName? rules (rules.fileRules key) entry ≠ some name := by
        intro hname
        have hpatch := h.patches name
        rw [horiginal, Option.map_some] at hpatch
        exact hfound ⟨name, _, hlookup.trans hname, hpatch⟩
      simp [Visit.looksFor, hnot]

omit [CharacterNames] in
theorem visitsOf_single (slotKey : String) (entry : Entry) (table : Entries) :
    visitsOf key ((slotKey, .single entry) :: table) = ⟨key, entry⟩ :: visitsOf key table := rfl

omit [CharacterNames] in
theorem visitsOf_overloads (slotKey : String) (first : Entry) (more : List Entry)
    (table : Entries) :
    visitsOf key ((slotKey, .overloads first more) :: table) = visitsOf key table := rfl

/-- The visits of a table. -/
theorem FileAfter.transformEntries {s s' : Session} (h : FileAfter rules earlier key s.file)
    {results table out : Entries}
    (hrun : transformEntries rules results table s = .ok out s') :
    FileAfter rules (earlier ++ visitsOf key table) key s'.file := by
  -- Each slot adds its visits behind the earlier ones; overloads are visited by no patch.
  induction table generalizing earlier results s with
  | nil =>
    cases hrun
    show FileAfter rules (earlier ++ []) key s'.file
    rw [List.append_nil]
    exact h
  | cons pair table ih =>
    obtain ⟨slotKey, slot⟩ := pair
    cases slot with
    | single entry =>
      obtain ⟨result, between, hentry, hrun⟩ := exists_of_bind hrun
      have hbetween := h.transformEntry hentry
      rw [visitsOf_single, ← List.singleton_append, ← List.append_assoc]
      cases result with
      | none => exact ih hbetween hrun
      | some result =>
        obtain ⟨results', after, hadd, hrun⟩ := exists_of_bind hrun
        refine ih ?_ hrun
        rw [(addResult_cases hadd).1]
        exact hbetween
    | overloads first more =>
      obtain ⟨entries, between, hentries, hrun⟩ := exists_of_bind hrun
      rw [visitsOf_overloads]
      refine ih ?_ hrun
      rw [transformOverloads_file hentries]
      exact h

/-! ## Files -/

/-- Before any visit the rules are those of the run. -/
theorem RulesAfter.start (rules : Rules) : RulesAfter rules [] rules := by
  refine ⟨rfl, fun key => ⟨rfl, fun name => ?_⟩⟩
  have hsame : namedBy (givenName? rules key name []) = id := rfl
  rw [hsame, Option.map_id, id_eq]

theorem visits_cons {pair : String × Header} {name : String}
    (h : placed? rules pair.2.name = some (key, name)) (files : Keyed Header) :
    visits rules (pair :: files) = visitsOf key pair.2.entries ++ visits rules files := by
  unfold visits
  rw [List.flatMap_cons, h]

omit [CharacterNames] in
/-- All visits of a file have its key. -/
theorem key_of_mem_visitsOf {table : Entries} {visit : Visit} (h : visit ∈ visitsOf key table) :
    visit.key = key := by
  obtain ⟨entry, -, rfl⟩ := List.mem_map.1 h
  rfl

/-- The steps of a file that gives a result: its entries are transformed, its doc goes through the
rules, and its includes are those of its rules or else those of the source. -/
theorem fileSteps_cases {source header : Header} {name : String} {s s' : Session}
    (h : fileSteps rules source name s = .ok header s') :
    ∃ results between doc,
      transformEntries rules [] source.entries (begun source name s) = .ok results between ∧
      Replacement.applyAll rules.allDocRules
        (fileDoc name (s.file.doc.get?.getD source.doc)) = .ok doc ∧
      header = {
        name, entries := (mergeFixed (fixedTable s.file) results).1, doc := String.ofList doc
        includes := s.file.includes.get? <|> source.includes
        localIncludes := s.file.localIncludes.get? <|> source.localIncludes } ∧
      s'.file = between.file ∧ s'.context = between.context := by
  obtain ⟨_, _, ⟨⟩, h⟩ := exists_of_bind h
  obtain ⟨_, _, ⟨⟩, h⟩ := exists_of_bind h
  obtain ⟨results, between, hresults, h⟩ := exists_of_bind h
  -- The notes only write to the log.
  obtain ⟨_, noted, hnoted, h⟩ := exists_of_bind h
  rw [forM_note .debug (fun key => name ++ ": " ++ key ++ " replaced by a fixed entry")] at hnoted
  cases hnoted
  obtain ⟨doc, after, hdoc, h⟩ := exists_of_bind h
  cases h
  refine ⟨results, between, doc, hresults, ?_⟩
  generalize Replacement.applyAll rules.allDocRules _ = applied at hdoc ⊢
  cases applied with
  | ok text =>
    cases hdoc
    exact ⟨rfl, rfl, rfl, rfl⟩
  | error e => cases hdoc

/-- The visits of a file. -/
theorem RulesAfter.transformFile {source header : Header} {run run' : Run} {name : String}
    (h : RulesAfter rules earlier run.rules)
    (hplaced : placed? rules source.name = some (key, name))
    (hrun : transformFile source run = .ok header run') :
    RulesAfter rules (earlier ++ visitsOf key source.entries) run'.rules := by
  obtain ⟨key', name', s, hplaced', hsteps, rfl⟩ := transformFile_cases hrun
  have hcontains := contains_of_placed? hplaced'
  rw [placed?_congr h.others, hplaced] at hplaced'
  cases hplaced'
  obtain ⟨results, between, -, hresults, -, -, hfile, -⟩ := fileSteps_cases hsteps
  rw [transformEntries_congr h.others] at hresults
  have hbegun : FileAfter rules earlier key (begun source name (opened run key)).file := h.files key
  have hafter := hbegun.transformEntries hresults
  rw [← hfile] at hafter
  have hsame : s.file.withoutPatches = (run.rules.fileRules key).withoutPatches := by
    rw [hafter.others, (h.files key).others]
  refine ⟨(Rules.withoutPatches_setFileRules hcontains hsame).trans h.others, fun other => ?_⟩
  show FileAfter rules _ other ((run.rules.setFileRules key s.file).fileRules other)
  rw [Rules.fileRules_setFileRules hcontains]
  split
  · rename_i heq
    rw [← heq.1]
    exact hafter
  · rename_i hne
    refine (h.files other).append fun name => ?_
    cases other with
    | none => exact Or.inl rfl
    | some other =>
      refine Or.inr fun visit hvisit => ?_
      -- The visits are those of another file.
      have hkey : visit.key ≠ some other := by
        rw [key_of_mem_visitsOf hvisit]
        rintro rfl
        exact hne ⟨rfl, rfl⟩
      simp [Visit.looksFor, hkey]

/-- Behind a run over files the rules are those of all visits so far. -/
theorem RulesAfter.transformFiles {run run' : Run} (h : RulesAfter rules earlier run.rules)
    {results files out : Keyed Header}
    (hrun : transformFiles results files run = .ok out run') :
    RulesAfter rules (earlier ++ visits rules files) run'.rules := by
  induction files generalizing earlier results run with
  | nil =>
    cases hrun
    show RulesAfter rules (earlier ++ []) run'.rules
    rw [List.append_nil]
    exact h
  | cons pair files ih =>
    obtain ⟨header, between, hheader, hrun⟩ := exists_of_bind hrun
    obtain ⟨key, name, s, hplaced, -, -⟩ := transformFile_cases hheader
    rw [placed?_congr h.others] at hplaced
    rw [visits_cons hplaced, ← List.append_assoc]
    exact ih (h.transformFile hplaced hheader) hrun

/-! ## Places -/

/-- A table is transformed in two parts, one behind the other. -/
theorem transformEntries_append (rules : Rules) (results before behind : Entries) :
    transformEntries rules results (before ++ behind) =
      transformEntries rules results before >>= fun between =>
        transformEntries rules between behind := by
  induction before generalizing results with
  | nil => rfl
  | cons pair before ih =>
    obtain ⟨slotKey, slot⟩ := pair
    rw [List.cons_append]
    cases slot with
    | single entry =>
      rw [transformEntries, transformEntries, bind_assoc]
      congr 1
      funext result
      cases result with
      | none => exact ih results
      | some result =>
        dsimp only
        rw [bind_assoc]
        congr 1
        funext results'
        exact ih results'
    | overloads first more =>
      rw [transformEntries, transformEntries, bind_assoc]
      congr 1
      funext entries
      exact ih _

/-- Files are transformed in two parts, one behind the other. -/
theorem transformFiles_append (results earlier later : Keyed Header) :
    transformFiles results (earlier ++ later) =
      transformFiles results earlier >>= fun between => transformFiles between later := by
  induction earlier generalizing results with
  | nil => rfl
  | cons pair earlier ih =>
    rw [List.cons_append, transformFiles, transformFiles, bind_assoc]
    congr 1
    funext header
    exact ih _

/-- A run that gives a result gives what it makes of the selected files. -/
theorem transformApi_cases {names : Option (List String)} {api : Api} {out : Outcome}
    (h : (transformApi rules names api).outcome = .ok out) :
    ∃ files run, transformFiles [] (api.files.filter fun pair => isSelected names pair.1)
        ⟨.ofRules rules, rules, []⟩ = .ok files run ∧
      out = ⟨⟨files⟩, run.context.warnings, run.rules⟩ := by
  unfold transformApi at h
  dsimp only at h
  split at h
  · cases h
  · rename_i files run hrun
    exact ⟨files, run, hrun, (Except.ok.inj h).symm⟩

end

/-- A single entry of some files, with the files and the slots before and behind it. -/
structure Place (files : Keyed Header) where
  earlier : Keyed Header
  fileKey : String
  source : Header
  later : Keyed Header
  files_eq : files = earlier ++ (fileKey, source) :: later
  before : Entries
  slotKey : String
  entry : Entry
  behind : Entries
  entries_eq : source.entries = before ++ (slotKey, .single entry) :: behind

namespace Place

variable {files : Keyed Header}

section

variable [CharacterNames]

/-- A run gets to a place in a session: it has transformed the files before, and of the file of the
place the slots before.  The key is that of the rules for this file. -/
structure Reaches (place : Place files) (rules : Rules) (key : Option String) (s : Session) :
    Prop where
  steps : ∃ headers run name results,
    transformFiles [] place.earlier ⟨.ofRules rules, rules, []⟩ = .ok headers run ∧
    placed? run.rules place.source.name = some (key, name) ∧
    transformEntries run.rules [] place.before (begun place.source name (opened run key)) =
      .ok results s

/-- The visits before a place in the file with the given key of rules. -/
def visitsBefore (place : Place files) (rules : Rules) (key : Option String) : List Visit :=
  visits rules place.earlier ++ visitsOf key place.before

/-- Where an entry is reached the rules of its file are those of the visits before it. -/
theorem Reaches.fileAfter {place : Place files} {s : Session} (h : place.Reaches rules key s) :
    FileAfter rules (place.visitsBefore rules key) key s.file := by
  obtain ⟨headers, run, name, results, hfiles, hplaced, hentries⟩ := h.steps
  have hrules := (RulesAfter.start rules).transformFiles hfiles
  rw [transformEntries_congr hrules.others] at hentries
  have hbegun : FileAfter rules (visits rules place.earlier) key
      (begun place.source name (opened run key)).file := hrules.files key
  exact hbegun.transformEntries hentries

/-- The entry at a place takes the name that its patch has got before, or else its own. -/
theorem Reaches.name_of_unnamed {place : Place files} {s s' : Session}
    (hreached : place.Reaches rules key s) {result : Entry}
    (hrun : transformEntry rules true place.entry s = .ok (some result) s') {name : String}
    (hname : lookupName? rules (rules.fileRules key) place.entry = some name) {patch : Patch}
    (hpatch : (rules.fileRules key).patch? name = some patch)
    (hunnamed : patch.name.get? = none) :
    result.name = (givenName? rules key name (place.visitsBefore rules key)).getD
      (ownName (rules.fileRules key) place.entry.toSignature name) := by
  have hfile := hreached.fileAfter
  have hpatch' := hfile.patches name
  rw [hpatch, Option.map_some] at hpatch'
  rw [← lookupName?_congr hfile.others] at hname
  have hgiven := (transformEntry_patched hrun hname hpatch').2 result rfl
  rw [ownName_congr hfile.others] at hgiven
  have hfresh : ∀ given, (withName patch given).name = .given given := by
    intro given
    unfold withName
    split
    · rename_i explicit hexplicit
      rw [hexplicit] at hunnamed
      cases hunnamed
    · rfl
  -- The first name that the patch is given is the one that it keeps.
  cases hbefore : givenName? rules key name (place.visitsBefore rules key) with
  | none =>
    rw [hbefore, namedBy, Option.elim_none, hfresh] at hgiven
    exact (Setting.given.inj hgiven).symm
  | some first =>
    rw [hbefore, namedBy, Option.elim_some, withName_withName, hfresh] at hgiven
    exact (Setting.given.inj hgiven).symm

/-- **A patch without a name** leaves an entry the name that it takes by itself if and only if the
first single entry of the run that looked for the patch, when there is one before it, takes the
same name by itself. -/
theorem Reaches.name_eq_ownName_iff {place : Place files} {s s' : Session}
    (hreached : place.Reaches rules key s) {result : Entry}
    (hrun : transformEntry rules true place.entry s = .ok (some result) s') {name : String}
    (hname : lookupName? rules (rules.fileRules key) place.entry = some name) {patch : Patch}
    (hpatch : (rules.fileRules key).patch? name = some patch)
    (hunnamed : patch.name.get? = none) :
    result.name = ownName (rules.fileRules key) place.entry.toSignature name ↔
      ∀ first ∈ (place.visitsBefore rules key).find? (Visit.looksFor rules key name),
        ownName (rules.fileRules key) first.entry.toSignature name =
          ownName (rules.fileRules key) place.entry.toSignature name := by
  rw [hreached.name_of_unnamed hrun hname hpatch hunnamed, givenName?]
  cases (place.visitsBefore rules key).find? (Visit.looksFor rules key name) with
  | none => simp
  | some first => simp

/-! ## Places of a run -/

/-- A run that gives a result gets to every place in the selected files. -/
theorem exists_reaches {names : Option (List String)} {api : Api} {out : Outcome}
    (h : (transformApi rules names api).outcome = .ok out)
    (place : Place (api.files.filter fun pair => isSelected names pair.1)) :
    ∃ key s result s', place.Reaches rules key s ∧
      transformEntry rules true place.entry s = .ok result s' := by
  obtain ⟨files, run, hrun, -⟩ := transformApi_cases h
  rw [place.files_eq, transformFiles_append] at hrun
  obtain ⟨results, between, hearlier, hrun⟩ := exists_of_bind hrun
  obtain ⟨header, after, hheader, -⟩ := exists_of_bind hrun
  obtain ⟨key, name, closing, hplaced, hsteps, -⟩ := transformFile_cases hheader
  have hrules := (RulesAfter.start rules).transformFiles hearlier
  obtain ⟨entries, _, -, hentries, -⟩ := fileSteps_cases hsteps
  rw [place.entries_eq, transformEntries_append] at hentries
  obtain ⟨results', s, hbefore, hentries⟩ := exists_of_bind hentries
  obtain ⟨result, s', hentry, -⟩ := exists_of_bind hentries
  rw [← transformEntry_withoutPatches, hrules.others, transformEntry_withoutPatches] at hentry
  exact ⟨key, s, result, s', ⟨⟨results, between, name, results', hearlier, hplaced, hbefore⟩⟩,
    hentry⟩

end

/-- The place of the resource behind the announcement of its record. -/
def window : Place windowApi.files where
  earlier := []
  fileKey := "SDL_video.h"
  source := {
    name := "SDL_video.h"
    entries := [
      ("SDL_Window-forward", .single { name := "SDL_Window", kind := .forward }),
      ("SDL_Window", .single {
        name := "SDL_Window", kind := .typeAlias, type := some "struct SDL_Window" })] }
  later := []
  files_eq := rfl
  before := [("SDL_Window-forward", .single { name := "SDL_Window", kind := .forward })]
  slotKey := "SDL_Window"
  entry := { name := "SDL_Window", kind := .typeAlias, type := some "struct SDL_Window" }
  behind := []
  entries_eq := rfl

/-- The session in which the resource is transformed: the announcement has named the patch. -/
def windowSession : Session where
  context := { warnings := [⟨"SDL_Window", "resource", "forward"⟩] }
  file := {
    patches := some [("Window", { name := .given "Window", doc := .given "A window." })]
    types := some [("SDL_Window", .resource)] }
  log := [⟨.info, "Transforming SDL_video.h into video.hpp"⟩]

/-- The resource under the name of the announcement. -/
def windowStruct : Entry where
  name := "Window"
  kind := .struct
  doc := "A window."
  type := some "T"
  parameters := some [.raw "using T::T;"]
  template := some [.named "T" "class" none]
  sourceName := some "SDL_Window"

theorem reaches_window : window.Reaches windowRules (some "SDL_video.h") windowSession :=
  ⟨⟨_, _, "video.hpp", _, rfl, rfl, rfl⟩⟩

theorem exists_transformEntry_window : ∃ s', transformEntry windowRules true window.entry
    windowSession = .ok (some windowStruct) s' :=
  ⟨_, rfl⟩

/-- A patch without a name, which the first entry names for the second. -/
theorem name_eq_ownName_iff_window :
    window.Reaches windowRules (some "SDL_video.h") windowSession ∧
      (∃ s', transformEntry windowRules true window.entry windowSession =
        .ok (some windowStruct) s') ∧
      lookupName? windowRules (windowRules.fileRules (some "SDL_video.h")) window.entry =
        some "Window" ∧
      (windowRules.fileRules (some "SDL_video.h")).patch? "Window" =
        some { doc := .given "A window." } ∧
      ("Window" = "WindowBase" ↔ ∀ first ∈ (window.visitsBefore windowRules
          (some "SDL_video.h")).find? (Visit.looksFor windowRules (some "SDL_video.h") "Window"),
        ownName (windowRules.fileRules (some "SDL_video.h")) first.entry.toSignature "Window" =
          "WindowBase") := by
  obtain ⟨s', hrun⟩ := exists_transformEntry_window
  have hname : lookupName? windowRules (windowRules.fileRules (some "SDL_video.h")) window.entry =
      some "Window" := rfl
  exact ⟨reaches_window, ⟨s', hrun⟩, hname, rfl,
    reaches_window.name_eq_ownName_iff hrun hname rfl rfl⟩

/-- A patch without a name may give an entry a name that it does not take by itself: it gives the
resource the name of the announcement. -/
theorem not_forall_name_eq_ownName :
    ¬ ∀ (rules : Rules) (files : Keyed Header) (place : Place files) (key : Option String)
      (s s' : Session) (result : Entry) (name : String) (patch : Patch),
      place.Reaches rules key s →
      transformEntry rules true place.entry s = .ok (some result) s' →
      lookupName? rules (rules.fileRules key) place.entry = some name →
      (rules.fileRules key).patch? name = some patch → patch.name.get? = none →
      result.name = ownName (rules.fileRules key) place.entry.toSignature name := by
  intro hall
  obtain ⟨s', hrun⟩ := exists_transformEntry_window
  have hname : "Window" = "WindowBase" :=
    hall windowRules _ window _ _ s' windowStruct "Window" _ reaches_window hrun rfl rfl rfl
  exact absurd hname (by decide)

end Place

end Transform

end HeaderApi
