import Mathlib.Data.List.Forall2
import Mathlib.Data.List.Nodup
import HeaderApi.Proofs.PatchNames

/-!
# Types of functions in the target

The type maps of a run hold what the entries before have declared.  A record, a callback or an alias
maps its source name to its default name, in four forms.  A resource maps its source name and the
pointer to it, to a reference in parameters and to the resource in results, and goes before the
others.  Names have neither blanks nor stars, so the forms of different names never meet.
-/

namespace HeaderApi

open Text

/-! ## Forms of a type -/

/-- The forms of a type under which the type maps know a name. -/
inductive TypeForm where
  | plain
  | pointer
  | constant
  | constantPointer
  deriving DecidableEq, Repr

namespace TypeForm

/-- The type that has a form and a name. -/
def spell : TypeForm → String → String
  | plain, name => name
  | pointer, name => name ++ " *"
  | constant, name => "const " ++ name
  | constantPointer, name => "const " ++ name ++ " *"

/-- The forms of an alias. -/
def ofAlias : List TypeForm := [plain, pointer, constant, constantPointer]

/-- The forms of a resource. -/
def ofResource : List TypeForm := [plain, pointer]

/-- The blanks and the stars that a form adds to a name. -/
def marks : TypeForm → Nat × Nat
  | plain => (0, 0)
  | pointer => (1, 1)
  | constant => (1, 0)
  | constantPointer => (2, 1)

theorem marks_injective : Function.Injective marks := by
  intro form form' h
  cases form <;> cases form' <;> first | rfl | cases h

theorem mem_ofAlias (form : TypeForm) : form ∈ ofAlias := by cases form <;> decide

/-- The blanks and stars of a spelled form are those of the form and of the name. -/
theorem count_spell (form : TypeForm) (name : String) :
    (form.spell name).toList.count ' ' = form.marks.1 + name.toList.count ' ' ∧
      (form.spell name).toList.count '*' = form.marks.2 + name.toList.count '*' := by
  have hpointer : " *".toList.count ' ' = 1 ∧ " *".toList.count '*' = 1 := by decide
  have hconst : "const ".toList.count ' ' = 1 ∧ "const ".toList.count '*' = 0 := by decide
  cases form with
  | plain => simp [spell, marks]
  | pointer =>
    simp only [spell, marks, String.toList_append, List.count_append]
    omega
  | constant =>
    simp only [spell, marks, String.toList_append, List.count_append]
    omega
  | constantPointer =>
    simp only [spell, marks, String.toList_append, List.count_append]
    omega

/-- A form spells different names differently. -/
theorem spell_injective (form : TypeForm) : Function.Injective form.spell := by
  intro name name' h
  cases form with
  | plain => exact h
  | pointer => exact (String.append_left_inj _).1 h
  | constant => exact (String.append_right_inj _).1 h
  | constantPointer => exact (String.append_right_inj _).1 ((String.append_left_inj _).1 h)

/-- On names with as many blanks and as many stars different forms are different. -/
theorem eq_of_spell_eq {form form' : TypeForm} {name name' : String}
    (h : form.spell name = form'.spell name')
    (hblanks : name.toList.count ' ' = name'.toList.count ' ')
    (hstars : name.toList.count '*' = name'.toList.count '*') : form = form' := by
  obtain ⟨hblank, hstar⟩ := form.count_spell name
  obtain ⟨hblank', hstar'⟩ := form'.count_spell name'
  rw [h] at hblank hstar
  refine marks_injective (Prod.ext ?_ ?_)
  · omega
  · omega

theorem nodup_spell (name : String) {forms : List TypeForm} (h : forms.Nodup) :
    (forms.map fun form => form.spell name).Nodup :=
  List.Nodup.map (fun _ _ heq => eq_of_spell_eq heq rfl rfl) h

end TypeForm

/-- A name of word characters and colons. -/
def IsName (name : String) : Prop := ∀ c ∈ name.toList, isWord c = true ∨ c = ':'

instance (name : String) : Decidable (IsName name) :=
  decidable_of_iff (name.toList.all (fun c => isWord c || c = ':') = true)
    (by simp only [IsName, List.all_eq_true, Bool.or_eq_true, decide_eq_true_eq])

/-- A name has no other characters than those of words, and colons. -/
theorem IsName.count_eq_zero {name : String} (h : IsName name) {c : Char} (hc : isWord c = false)
    (hcolon : c ≠ ':') : name.toList.count c = 0 := by
  refine List.count_eq_zero.2 fun hmem => ?_
  rcases h c hmem with hword | heq
  · rw [hc] at hword
    cases hword
  · exact hcolon heq

/-- **The forms of names never meet.** -/
theorem IsName.spell_inj {name name' : String} (h : IsName name) (h' : IsName name')
    {form form' : TypeForm} (heq : form.spell name = form'.spell name') :
    form = form' ∧ name = name' := by
  have hblank : ∀ {name}, IsName name → name.toList.count ' ' = 0 :=
    fun h => h.count_eq_zero (by decide) (by decide)
  have hstar : ∀ {name}, IsName name → name.toList.count '*' = 0 :=
    fun h => h.count_eq_zero (by decide) (by decide)
  have hform : form = form' := by
    refine TypeForm.eq_of_spell_eq heq ?_ ?_
    · rw [hblank h, hblank h']
    · rw [hstar h, hstar h']
  subst hform
  exact ⟨rfl, form.spell_injective heq⟩

namespace Transform

/-! ## The declared substitution -/

/-- An entry that a run has gone through, with the rules of its file and its default name. -/
structure Seen where
  file : FileRules
  entry : Signature
  name : String

/-- The resource that an entry is declared as. -/
def Seen.resource? (seen : Seen) : Option String :=
  ((ruleFor seen.file seen.entry seen.name).filter (fits seen.entry)).map fun rule =>
    resourceName rule seen.name

/-- Whether an entry makes its default name known: a record, a callback, or an alias that is no
resource. -/
def Seen.isRenamed (seen : Seen) : Bool :=
  match seen.entry.kind with
  | .struct | .union | .enum | .callback => true
  | .typeAlias => seen.resource?.isNone
  | .definition | .forward | .function | .var => false

/-- The entries of a list that a run goes through under the rules of a file: all but those that are
left out. -/
def seenIn [CharacterNames] (rules : Rules) (file : FileRules) (entries : List Entry) : List Seen :=
  entries.filterMap fun entry =>
    (lookupName? rules file entry).map fun name => ⟨file, entry.toSignature, name⟩

/-- The entries that a run goes through in some files. -/
def seenOf [CharacterNames] (rules : Rules) (files : Keyed Header) : List Seen :=
  files.flatMap fun pair =>
    match placed? rules pair.2.name with
    | some (key, _) => seenIn rules (rules.fileRules key) pair.2.entries.toList
    | none => []

/-- The resource that a source name was last declared as. -/
def lastResource? (before : List Seen) (source : String) : Option String :=
  before.reverse.findSome? fun seen => if seen.entry.name = source then seen.resource? else none

/-- Some entry before has a source name and another name by default. -/
structure RenamedBefore (before : List Seen) (source name : String) : Prop where
  ne : name ≠ source
  ne_empty : source ≠ ""
  seen : ∃ seen ∈ before, seen.isRenamed = true ∧ seen.entry.name = source ∧ seen.name = name

/-- A type and its target, given the entries before and what becomes of the name of a resource. -/
inductive TypeTarget (before : List Seen) (position : String → String) : String → String → Prop
  | resource {form : TypeForm} {source name : String} (hform : form ∈ TypeForm.ofResource)
      (hname : lastResource? before source = some name) :
      TypeTarget before position (form.spell source) (position name)
  | renamed {form : TypeForm} {source name : String} (hname : RenamedBefore before source name)
      (hother : form ∈ TypeForm.ofResource → lastResource? before source = none) :
      TypeTarget before position (form.spell source) (form.spell name)
  | other {type : String}
      (hresource : ∀ form ∈ TypeForm.ofResource, ∀ source, form.spell source = type →
        lastResource? before source = none)
      (hname : ∀ (form : TypeForm) source name, form.spell source = type →
        ¬ RenamedBefore before source name) :
      TypeTarget before position type type

/-- A parameter and its target: its type is that of a parameter, and text is kept. -/
inductive ParameterTarget (before : List Seen) : Parameter → Parameter → Prop
  | named {name type target : String} {default : Option String}
      (htype : TypeTarget before (fun resource => resource ++ "Ref") type target) :
      ParameterTarget before (.named name type default) (.named name target default)
  | raw (text : String) : ParameterTarget before (.raw text) (.raw text)

/-- A function and its target, given the entries before. -/
structure FunctionTarget [CharacterNames] (rules : Rules) (before : List Seen)
    (source target : Signature) : Prop where
  kind : target.kind = .function
  name : rules.defaultName source.name = .ok target.name
  sourceName : target.sourceName = some source.name
  template : target.template = source.template
  type : Option.Rel (TypeTarget before id) source.type target.type
  parameters :
    Option.Rel (List.Forall₂ (ParameterTarget before)) source.parameters target.parameters

variable {rules : Rules} {before : List Seen} {seen : Seen}

/-- The last resource of a name is that of the last entry, if it makes one. -/
theorem lastResource?_concat (before : List Seen) (seen : Seen) (source : String) :
    lastResource? (before ++ [seen]) source =
      if seen.entry.name = source then seen.resource?.or (lastResource? before source)
      else lastResource? before source := by
  unfold lastResource?
  rw [List.reverse_append, List.reverse_singleton, List.singleton_append, List.findSome?_cons]
  by_cases hname : seen.entry.name = source
  · rw [if_pos hname, if_pos hname]
    cases seen.resource? with
    | none => rfl
    | some name => rfl
  · rw [if_neg hname, if_neg hname]

/-- A resource carries the name of some entry before. -/
theorem exists_of_lastResource? {source name : String}
    (h : lastResource? before source = some name) :
    ∃ seen ∈ before, seen.entry.name = source := by
  obtain ⟨seen, hmem, hseen⟩ := List.exists_of_findSome?_eq_some h
  refine ⟨seen, List.mem_reverse.1 hmem, ?_⟩
  split at hseen
  · assumption
  · cases hseen

/-- A name is renamed before some entries and one more, when it is before or that one renames it. -/
theorem renamedBefore_concat (before : List Seen) (seen : Seen) (source name : String) :
    RenamedBefore (before ++ [seen]) source name ↔
      RenamedBefore before source name ∨
        (name ≠ source ∧ source ≠ "" ∧ seen.isRenamed = true ∧ seen.entry.name = source ∧
          seen.name = name) := by
  constructor
  · rintro ⟨hne, hempty, other, hmem, hother⟩
    rcases List.mem_append.1 hmem with hmem | hmem
    · exact Or.inl ⟨hne, hempty, other, hmem, hother⟩
    · rw [List.mem_singleton.1 hmem] at hother
      exact Or.inr ⟨hne, hempty, hother⟩
  · rintro (⟨hne, hempty, other, hmem, hother⟩ | ⟨hne, hempty, hother⟩)
    · exact ⟨hne, hempty, other, List.mem_append_left _ hmem, hother⟩
    · exact ⟨hne, hempty, seen, List.mem_append_right _ (List.mem_singleton.2 rfl), hother⟩

/-! ## What the type maps hold -/

/-- Entries that have names, with the default names that the rules give them. -/
structure Named [CharacterNames] (rules : Rules) (before : List Seen) : Prop where
  names : ∀ seen ∈ before, IsName seen.entry.name
  defaults : ∀ seen ∈ before, rules.defaultName seen.entry.name = .ok seen.name

theorem Named.append [CharacterNames] {later : List Seen} (h : Named rules before)
    (hlater : Named rules later) : Named rules (before ++ later) :=
  ⟨List.forall_mem_append.2 ⟨h.names, hlater.names⟩,
    List.forall_mem_append.2 ⟨h.defaults, hlater.defaults⟩⟩

/-- A table that holds what the types of resources become. -/
def HoldsResources (before : List Seen) (position : String → String) (table : Keyed String) :
    Prop :=
  ∀ type target, Keyed.find? table type = some target ↔
    ∃ form ∈ TypeForm.ofResource, ∃ source name,
      lastResource? before source = some name ∧ form.spell source = type ∧ position name = target

/-- A table that holds what the types of renamed entries become. -/
def HoldsNames (before : List Seen) (table : Keyed String) : Prop :=
  ∀ type target, Keyed.find? table type = some target ↔
    ∃ (form : TypeForm) (source name : String),
      RenamedBefore before source name ∧ form.spell source = type ∧ form.spell name = target

/-- Type maps that hold what the entries before have declared. -/
structure Knows (before : List Seen) (c : Context) : Prop where
  names : HoldsNames before c.typeMap
  paramTypes : HoldsResources before (fun resource => resource ++ "Ref") c.paramTypeMap
  returnTypes : HoldsResources before id c.returnTypeMap

/-- In a table into which the forms of a name are put, a type is found as the form that it is of
that name, or else where it was before. -/
theorem find?_insertAll_spell (table : Keyed String) {forms : List TypeForm} (hforms : forms.Nodup)
    (name : String) (value : TypeForm → String) (type : String) :
    (∃ form ∈ forms, form.spell name = type ∧
      Keyed.find? (Keyed.insertAll table (forms.map fun form => (form.spell name, value form)))
        type = some (value form)) ∨
    (∀ form ∈ forms, form.spell name ≠ type) ∧
      Keyed.find? (Keyed.insertAll table (forms.map fun form => (form.spell name, value form)))
        type = Keyed.find? table type := by
  rw [Keyed.find?_insertAll_map table _ _ (TypeForm.nodup_spell name hforms)]
  cases hfind : forms.find? fun form => form.spell name = type with
  | some form =>
    refine .inl ⟨form, List.mem_of_find?_eq_some hfind, ?_, rfl⟩
    simpa using List.find?_some hfind
  | none =>
    refine .inr ⟨fun form hform => ?_, rfl⟩
    simpa using List.find?_eq_none.1 hfind form hform

/-- A resource is put into a table under its two forms, in front of an older one of its name. -/
theorem HoldsResources.register [CharacterNames] {position : String → String} {table : Keyed String}
    (h : HoldsResources before position table) (hnames : Named rules (before ++ [seen]))
    {name : String} (hresource : seen.resource? = some name) :
    HoldsResources (before ++ [seen]) position
      (Keyed.insertAll table
        (TypeForm.ofResource.map fun form => (form.spell seen.entry.name, position name))) := by
  intro type target
  have hforms : TypeForm.ofResource.Nodup := by decide
  obtain ⟨form, hform, hspell, hfind⟩ | ⟨hother, hfind⟩ :=
    find?_insertAll_spell table hforms seen.entry.name (fun _ => position name) type
  · -- The type is a form of the new name, hence of no other name.
    have hseen : IsName seen.entry.name :=
      hnames.names seen (List.mem_append_right _ (List.mem_singleton.2 rfl))
    rw [hfind]
    constructor
    · rintro ⟨⟩
      refine ⟨form, hform, seen.entry.name, name, ?_, hspell, rfl⟩
      rw [lastResource?_concat, if_pos rfl, hresource, Option.some_or]
    · rintro ⟨form', -, source, other, hlast, hspell', rfl⟩
      obtain ⟨known, hknown, rfl⟩ := exists_of_lastResource? hlast
      obtain ⟨-, hsource⟩ := (hnames.names known hknown).spell_inj hseen (hspell'.trans hspell.symm)
      rw [lastResource?_concat, if_pos hsource.symm, hresource, Option.some_or] at hlast
      cases hlast
      rfl
  · rw [hfind, h type target]
    -- A type that is no form of the new name is a form of older names only.
    have hsame : ∀ form ∈ TypeForm.ofResource, ∀ source, form.spell source = type →
        lastResource? (before ++ [seen]) source = lastResource? before source := by
      intro form hform source hspell
      rw [lastResource?_concat, if_neg]
      rintro rfl
      exact hother form hform hspell
    constructor
    · rintro ⟨form, hform, source, other, hlast, hspell, htarget⟩
      refine ⟨form, hform, source, other, ?_, hspell, htarget⟩
      rw [hsame form hform source hspell]
      exact hlast
    · rintro ⟨form, hform, source, other, hlast, hspell, htarget⟩
      refine ⟨form, hform, source, other, ?_, hspell, htarget⟩
      rw [← hsame form hform source hspell]
      exact hlast

/-- An entry that is no resource leaves the resources as they are. -/
theorem HoldsResources.skip {position : String → String} {table : Keyed String}
    (h : HoldsResources before position table) (hresource : seen.resource? = none) :
    HoldsResources (before ++ [seen]) position table := by
  have hsame : ∀ source, lastResource? (before ++ [seen]) source = lastResource? before source := by
    intro source
    rw [lastResource?_concat, hresource, Option.none_or, ite_self]
  intro type target
  simp only [hsame]
  exact h type target

/-- A new name is put into a table under its four forms. -/
theorem HoldsNames.register [CharacterNames] {table : Keyed String} (h : HoldsNames before table)
    (hnames : Named rules (before ++ [seen])) (hrenamed : seen.isRenamed = true)
    (hne : seen.name ≠ seen.entry.name) (hempty : seen.entry.name ≠ "") :
    HoldsNames (before ++ [seen])
      (Keyed.insertAll table
        (TypeForm.ofAlias.map fun form => (form.spell seen.entry.name, form.spell seen.name))) := by
  intro type target
  have hlast : seen ∈ before ++ [seen] := List.mem_append_right _ (List.mem_singleton.2 rfl)
  have hseen : RenamedBefore (before ++ [seen]) seen.entry.name seen.name :=
    ⟨hne, hempty, seen, hlast, hrenamed, rfl, rfl⟩
  have hforms : TypeForm.ofAlias.Nodup := by decide
  obtain ⟨form, -, hspell, hfind⟩ | ⟨hother, hfind⟩ :=
    find?_insertAll_spell table hforms seen.entry.name (fun form => form.spell seen.name) type
  · rw [hfind]
    constructor
    · rintro ⟨⟩
      exact ⟨form, seen.entry.name, seen.name, hseen, hspell, rfl⟩
    · rintro ⟨form', source, name, ⟨-, -, known, hknown, -, rfl, rfl⟩, hspell', rfl⟩
      obtain ⟨rfl, hsource⟩ := (hnames.names known hknown).spell_inj (hnames.names seen hlast)
        (hspell'.trans hspell.symm)
      -- Entries of one name have one default name.
      have hdefault := hnames.defaults known hknown
      rw [hsource, hnames.defaults seen hlast] at hdefault
      rw [Except.ok.inj hdefault]
  · rw [hfind, h type target]
    constructor
    · rintro ⟨form, source, name, hold, hspell, htarget⟩
      exact ⟨form, source, name, (renamedBefore_concat before seen source name).2 (Or.inl hold),
        hspell, htarget⟩
    · rintro ⟨form, source, name, hnew, hspell, htarget⟩
      rcases (renamedBefore_concat before seen source name).1 hnew with hold | ⟨-, -, -, rfl, -⟩
      · exact ⟨form, source, name, hold, hspell, htarget⟩
      · exact absurd hspell (hother form form.mem_ofAlias)

/-- An entry that takes no other name leaves the names as they are. -/
theorem HoldsNames.skip {table : Keyed String} (h : HoldsNames before table)
    (hseen : seen.isRenamed = true → seen.name ≠ seen.entry.name → seen.entry.name = "") :
    HoldsNames (before ++ [seen]) table := by
  have hsame : ∀ source name,
      RenamedBefore (before ++ [seen]) source name ↔ RenamedBefore before source name := by
    intro source name
    rw [renamedBefore_concat]
    refine or_iff_left ?_
    rintro ⟨hne, hempty, hrenamed, rfl, rfl⟩
    exact hempty (hseen hrenamed hne)
  intro type target
  simp only [hsame]
  exact h type target

/-! ## Types out of the maps -/

/-- A type that is found in the maps is a form of a name that was declared before. -/
theorem Knows.typeTarget {c : Context} (h : Knows before c) {position : String → String}
    {table : Keyed String} (htable : HoldsResources before position table) (type : String) :
    TypeTarget before position type ((Keyed.find? table type).getD (c.mapType type)) := by
  cases hresource : Keyed.find? table type with
  | some target =>
    obtain ⟨form, hform, source, name, hname, rfl, rfl⟩ := (htable type target).1 hresource
    exact .resource hform hname
  | none =>
    -- no name of the type is a resource, for the form of one would be in the table
    have hnone : ∀ form ∈ TypeForm.ofResource, ∀ source, form.spell source = type →
        lastResource? before source = none := by
      intro form hform source hspell
      cases hlast : lastResource? before source with
      | none => rfl
      | some name =>
        have hfound :=
          (htable type (position name)).2 ⟨form, hform, source, name, hlast, hspell, rfl⟩
        rw [hresource] at hfound
        cases hfound
    rw [Option.getD_none, Context.mapType]
    cases hfind : Keyed.find? c.typeMap type with
    | some target =>
      obtain ⟨form, source, name, hname, rfl, rfl⟩ := (h.names type target).1 hfind
      exact .renamed hname fun hform => hnone form hform source rfl
    | none =>
      refine .other hnone fun form source name hspell hname => ?_
      have hfound := (h.names type (form.spell name)).2 ⟨form, source, name, hname, hspell, rfl⟩
      rw [hfind] at hfound
      cases hfound

section

variable [CharacterNames]

/-- What is a resource has a name. -/
theorem Named.isName_of_resource (hnames : Named rules before) {source name : String}
    (h : lastResource? before source = some name) : IsName source := by
  obtain ⟨seen, hmem, rfl⟩ := exists_of_lastResource? h
  exact hnames.names seen hmem

/-- What is renamed has a name. -/
theorem Named.isName_of_renamed (hnames : Named rules before) {source name : String}
    (h : RenamedBefore before source name) : IsName source := by
  obtain ⟨seen, hmem, -, rfl, -⟩ := h.seen
  exact hnames.names seen hmem

/-- A source name is renamed in one way. -/
theorem Named.renamed_unique (hnames : Named rules before) {source name name' : String}
    (h : RenamedBefore before source name) (h' : RenamedBefore before source name') :
    name = name' := by
  obtain ⟨seen, hmem, -, rfl, rfl⟩ := h.seen
  obtain ⟨other, hmem', -, hsource, rfl⟩ := h'.seen
  have hdefault := hnames.defaults other hmem'
  rw [hsource, hnames.defaults seen hmem] at hdefault
  exact Except.ok.inj hdefault

/-- **The substitution is one.**  Given the entries before, a type has one target. -/
theorem TypeTarget.unique (hnames : Named rules before) {position : String → String}
    {type target target' : String} (h : TypeTarget before position type target)
    (h' : TypeTarget before position type target') : target = target' := by
  cases h with
  | @resource form source name hform hname =>
    have hsource := hnames.isName_of_resource hname
    -- a type has one spelling, so both targets come from one name
    generalize hspell : form.spell source = type at h'
    cases h' with
    | resource _ hname' =>
      obtain ⟨-, rfl⟩ := hsource.spell_inj (hnames.isName_of_resource hname') hspell
      rw [hname] at hname'
      rw [Option.some.inj hname']
    | renamed hname' hother =>
      obtain ⟨rfl, rfl⟩ := hsource.spell_inj (hnames.isName_of_renamed hname') hspell
      rw [hother hform] at hname
      cases hname
    | other hresource _ =>
      rw [hresource form hform source hspell] at hname
      cases hname
  | @renamed form source name hname hother =>
    have hsource := hnames.isName_of_renamed hname
    generalize hspell : form.spell source = type at h'
    cases h' with
    | resource hform hname' =>
      obtain ⟨rfl, rfl⟩ := hsource.spell_inj (hnames.isName_of_resource hname') hspell
      rw [hother hform] at hname'
      cases hname'
    | renamed hname' _ =>
      obtain ⟨rfl, rfl⟩ := hsource.spell_inj (hnames.isName_of_renamed hname') hspell
      rw [hnames.renamed_unique hname hname']
    | other _ hnone => exact absurd hname (hnone form source name hspell)
  | other hresource hnone =>
    cases h' with
    | resource hform hname =>
      rw [hresource _ hform _ rfl] at hname
      cases hname
    | renamed hname _ => exact absurd hname (hnone _ _ _ rfl)
    | other _ _ => rfl

end

/-! ## One entry -/

/-- Only an alias makes a resource. -/
theorem Seen.kind_of_resource {resource : String} (h : seen.resource? = some resource) :
    seen.entry.kind = .typeAlias := by
  obtain ⟨rule, hrule, -⟩ := Option.map_eq_some_iff.1 h
  have hfits := (Option.filter_eq_some_iff.1 hrule).2
  unfold fits at hfits
  rw [Bool.and_eq_true, decide_eq_true_eq] at hfits
  exact hfits.1

/-- An alias that makes a resource renames nothing. -/
theorem Seen.isRenamed_of_resource {resource : String} (h : seen.resource? = some resource) :
    seen.isRenamed = false := by
  unfold Seen.isRenamed
  rw [seen.kind_of_resource h, h]
  rfl

/-- A renamed entry becomes an alias of its source. -/
theorem plainSignature_of_renamed (h : seen.isRenamed = true) (c : Context) :
    (plainSignature c seen.entry seen.name).kind = .typeAlias ∧
      (plainSignature c seen.entry seen.name).type = some seen.entry.name ∧
      (plainSignature c seen.entry seen.name).name = seen.name := by
  unfold Seen.isRenamed at h
  generalize hkind : seen.entry.kind = kind at h
  cases kind <;> simp [plainSignature, common, hkind] at h ⊢

/-- An entry that is neither renamed nor a resource keeps its kind. -/
theorem plainSignature_kind (h : seen.isRenamed = false) (hresource : seen.resource? = none)
    (c : Context) :
    (plainSignature c seen.entry seen.name).kind = seen.entry.kind ∧
      seen.entry.kind ≠ .typeAlias := by
  unfold Seen.isRenamed at h
  rw [hresource] at h
  generalize hkind : seen.entry.kind = kind at h
  cases kind <;> simp [plainSignature, common, hkind] at h ⊢

/-- What is no resource is made known when it takes another name. -/
theorem registered_plainSignature (h : seen.resource? = none) (c c' : Context) :
    registered (plainSignature c seen.entry seen.name) c' =
      if seen.isRenamed = true ∧ seen.name ≠ seen.entry.name ∧ seen.entry.name ≠ "" then
        c'.registerAlias seen.entry.name seen.name
      else c' := by
  unfold registered
  cases hrenamed : seen.isRenamed with
  | true =>
    obtain ⟨hkind, htype, hname⟩ := plainSignature_of_renamed hrenamed c
    rw [hkind, htype, hname]
    dsimp only
    -- an entry that keeps its name, or has none, is not made known
    by_cases hsame : seen.entry.name = seen.name ∨ seen.entry.name = ""
    · rw [if_pos hsame, if_neg]
      rintro ⟨-, hne, hempty⟩
      exact hsame.elim (fun heq => hne heq.symm) hempty
    · rw [if_neg hsame, if_pos]
      exact ⟨rfl, fun heq => hsame (Or.inl heq.symm), fun hempty => hsame (Or.inr hempty)⟩
  | false =>
    obtain ⟨hkind, hne⟩ := plainSignature_kind hrenamed h c
    rw [if_neg (by simp)]
    split
    · rename_i halias _
      rw [hkind] at halias
      exact absurd halias hne
    · rfl

section

variable [CharacterNames]

/-- Behind a resource the context knows it. -/
theorem Knows.resource {c : Context} (h : Knows before c) (hnames : Named rules (before ++ [seen]))
    {resource : String} (hresource : seen.resource? = some resource) :
    Knows (before ++ [seen]) (c.registerResource seen.entry.name resource) where
  names := by
    refine h.names.skip fun hrenamed => ?_
    rw [seen.isRenamed_of_resource hresource] at hrenamed
    cases hrenamed
  paramTypes := h.paramTypes.register hnames hresource
  returnTypes := h.returnTypes.register hnames hresource

/-- Behind any other entry the context knows what it renames. -/
theorem Knows.plain {c : Context} (h : Knows before c) (hnames : Named rules (before ++ [seen]))
    (hresource : seen.resource? = none) (c' : Context) :
    Knows (before ++ [seen]) (registered (plainSignature c' seen.entry seen.name) c) := by
  rw [registered_plainSignature hresource]
  split
  · rename_i hseen
    obtain ⟨hrenamed, hne, hempty⟩ := hseen
    exact ⟨h.names.register hnames hrenamed hne hempty, h.paramTypes.skip hresource,
      h.returnTypes.skip hresource⟩
  · rename_i hseen
    refine ⟨h.names.skip fun hrenamed hne => ?_, h.paramTypes.skip hresource,
      h.returnTypes.skip hresource⟩
    by_contra hempty
    exact hseen ⟨hrenamed, hne, hempty⟩

omit [CharacterNames] in
/-- Parameters are mapped by what the context knows. -/
theorem Knows.parameterTargets {c : Context} (h : Knows before c) (parameters : List Parameter) :
    List.Forall₂ (ParameterTarget before) parameters (mapParameters c parameters) := by
  unfold mapParameters
  rw [List.forall₂_map_right_iff, List.forall₂_same]
  intro parameter _
  cases parameter with
  | named name type default => exact .named (h.typeTarget h.paramTypes type)
  | raw text => exact .raw text

omit [CharacterNames] in
/-- A function is the plain target of a function. -/
theorem kind_of_plainSignature {c : Context} {entry : Signature} {name : String}
    (h : (plainSignature c entry name).kind = .function) : entry.kind = .function := by
  generalize hkind : entry.kind = kind
  unfold plainSignature at h
  rw [hkind] at h
  cases kind <;> simp [common, hkind] at h ⊢

/-- The types of a function go through the maps. -/
theorem Knows.functionTarget {c : Context} (h : Knows before c) {entry : Signature} {name : String}
    (hdefault : rules.defaultName entry.name = .ok name) (hkind : entry.kind = .function) :
    FunctionTarget rules before entry (plainSignature c entry name) := by
  unfold plainSignature
  rw [hkind]
  refine ⟨hkind, hdefault, rfl, rfl, ?_, ?_⟩
  · show Option.Rel _ entry.type (entry.type.map c.mapReturnType)
    cases entry.type with
    | none => exact .none
    | some type => exact .some (h.typeTarget h.returnTypes type)
  · show Option.Rel _ entry.parameters (entry.parameters.map (mapParameters c))
    cases entry.parameters with
    | none => exact .none
    | some parameters => exact .some (h.parameterTargets parameters)

/-- The doc of a target does not matter for its types. -/
theorem FunctionTarget.withDoc {source target : Signature}
    (h : FunctionTarget rules before source target) (doc : String) :
    FunctionTarget rules before source { target with doc } :=
  ⟨h.kind, h.name, h.sourceName, h.template, h.type, h.parameters⟩

/-- An entry is seen under the name by which it is looked up, if it has one. -/
theorem seenIn_singleton (rules : Rules) (file : FileRules) (entry : Entry) :
    seenIn rules file [entry] =
      ((lookupName? rules file entry).map fun name => ⟨file, entry.toSignature, name⟩).toList := by
  unfold seenIn
  cases hname : lookupName? rules file entry with
  | none => rw [List.filterMap_cons_none (by rw [hname]; rfl)]; rfl
  | some name => rw [List.filterMap_cons_some (by rw [hname]; rfl)]; rfl

/-- An entry is looked up by its default name. -/
theorem defaultName_of_lookupName? {file : FileRules} {entry : Entry} {name : String}
    (h : lookupName? rules file entry = some name) : rules.defaultName entry.name = .ok name := by
  unfold lookupName? at h
  split at h
  · cases h
  · split at h
    · cases h
    · rename_i hdefault
      split at h
      · cases h
      · cases h
        exact hdefault

/-- **One entry.**  In a file without patches an entry leaves the maps with what it declares, it
loses its members, and a function takes its types from what was declared before. -/
theorem Knows.transformEntry {overrides : Bool} {entry : Entry} {result : Option Entry}
    {s s' : Session} (h : Knows before s.context)
    (hnames : Named rules (before ++ seenIn rules s.file [entry]))
    (hunpatched : ∀ name, s.file.patch? name = none)
    (hrun : transformEntry rules overrides entry s = .ok result s') :
    s'.file = s.file ∧ Knows (before ++ seenIn rules s.file [entry]) s'.context ∧
      (entry.sourceName = none → ∀ made ∈ result, made.members = none ∧
        (made.kind = .function → entry.kind = .function ∧
          FunctionTarget rules before entry.toSignature made.toSignature)) := by
  rw [seenIn_singleton] at hnames ⊢
  rcases transformEntry_cases hrun with ⟨hnone, hfile, hcontext, hresult⟩ |
    ⟨name, signature, isResource, between, made, after, hname, htarget, hmade, haccept⟩
  · rw [hnone, Option.map_none, Option.toList_none, List.append_nil, hcontext]
    refine ⟨hfile, h, fun hnew made hmem => ?_⟩
    rcases hresult with rfl | ⟨hsome, rfl⟩
    · cases hmem
    · rw [hnew] at hsome
      cases hsome
  · rw [hname, Option.map_some, Option.toList_some] at hnames ⊢
    obtain ⟨hbetween, hcases⟩ := target_cases htarget
    -- There is no patch to apply.
    have hkept : made = ⟨signature, none⟩ ∧ after = between := by
      cases overrides with
      | false =>
        cases hmade
        exact ⟨rfl, rfl⟩
      | true =>
        rw [if_pos rfl] at hmade
        rcases applyPatch_cases hmade with ⟨-, rfl, rfl⟩ | ⟨patch, hpatch, -, -⟩
        · exact ⟨rfl, rfl⟩
        · rw [hbetween, hunpatched] at hpatch
          cases hpatch
    obtain ⟨rfl, rfl⟩ := hkept
    obtain ⟨hafter, hcontext, hresult⟩ := accept_cases haccept
    refine ⟨hafter.trans hbetween, ?_⟩
    rw [hcontext]
    rcases hcases with ⟨rule, hrule, rfl, rfl, hregister⟩ | ⟨hrule, rfl, rfl, warnings, hwarned⟩
    · rw [if_pos rfl, hregister]
      have hresource : (Seen.mk s.file entry.toSignature name).resource? =
          some (resourceName rule name) := by rw [Seen.resource?, hrule, Option.map_some]
      refine ⟨h.resource hnames hresource, fun _ made hmem => ?_⟩
      obtain ⟨doc, rfl⟩ := hresult made hmem
      exact ⟨rfl, nofun⟩
    · rw [if_neg (by decide), hwarned]
      have hresource : (Seen.mk s.file entry.toSignature name).resource? = none := by
        rw [Seen.resource?, hrule, Option.map_none]
      have hknown : Knows before { s.context with warnings } :=
        ⟨h.names, h.paramTypes, h.returnTypes⟩
      refine ⟨hknown.plain hnames hresource s.context, fun _ made hmem => ?_⟩
      obtain ⟨doc, rfl⟩ := hresult made hmem
      refine ⟨rfl, fun hkind => ?_⟩
      have hfunction := kind_of_plainSignature hkind
      exact ⟨hfunction, (h.functionTarget (defaultName_of_lookupName? hname) hfunction).withDoc doc⟩

/-! ## Tables -/

variable {file : FileRules} {earlier : List Entry}

theorem seenIn_append (rules : Rules) (file : FileRules) (entries later : List Entry) :
    seenIn rules file (entries ++ later) = seenIn rules file entries ++ seenIn rules file later :=
  List.filterMap_append

/-- What is seen of entries with names has names. -/
theorem named_seenIn {entries : List Entry} (h : ∀ entry ∈ entries, IsName entry.name) :
    Named rules (seenIn rules file entries) := by
  constructor
  · intro seen hseen
    obtain ⟨entry, hentry, hname⟩ := List.mem_filterMap.1 hseen
    obtain ⟨name, -, rfl⟩ := Option.map_eq_some_iff.1 hname
    exact h entry hentry
  · intro seen hseen
    obtain ⟨entry, -, hname⟩ := List.mem_filterMap.1 hseen
    obtain ⟨name, hlookup, rfl⟩ := Option.map_eq_some_iff.1 hname
    exact defaultName_of_lookupName? hlookup

/-- Entries that have names and are no results of a former run, behind others that have names, in a
file without patches. -/
structure Fresh (rules : Rules) (before : List Seen) (file : FileRules) (entries : List Entry) :
    Prop where
  unpatched : ∀ name, file.patch? name = none
  before : Named rules before
  names : ∀ entry ∈ entries, IsName entry.name
  sources : ∀ entry ∈ entries, entry.sourceName = none

/-- Entries in front of others are fresh when all are. -/
theorem Fresh.left {entries later : List Entry} (h : Fresh rules before file (entries ++ later)) :
    Fresh rules before file entries :=
  ⟨h.unpatched, h.before, fun entry hentry => h.names entry (List.mem_append_left _ hentry),
    fun entry hentry => h.sources entry (List.mem_append_left _ hentry)⟩

theorem Fresh.named {entries : List Entry} (h : Fresh rules before file entries) :
    Named rules (before ++ seenIn rules file entries) :=
  h.before.append (named_seenIn h.names)

/-- A session behind some entries of a file. -/
structure Behind (rules : Rules) (before : List Seen) (file : FileRules) (earlier : List Entry)
    (s : Session) : Prop where
  file_eq : s.file = file
  knows : Knows (before ++ seenIn rules file earlier) s.context

/-- A result has no members, and a function is the target of one of some entries, given those
before it. -/
structure MadeIn (rules : Rules) (before : List Seen) (file : FileRules) (entries : List Entry)
    (made : Entry) : Prop where
  members : made.members = none
  function : made.kind = .function → ∃ earlier source later, entries = earlier ++ source :: later ∧
    source.kind = .function ∧
    FunctionTarget rules (before ++ seenIn rules file earlier) source.toSignature made.toSignature

theorem MadeIn.append {entries : List Entry} {made : Entry}
    (h : MadeIn rules before file entries made) (more : List Entry) :
    MadeIn rules before file (entries ++ more) made := by
  refine ⟨h.members, fun hkind => ?_⟩
  obtain ⟨earlier, source, later, rfl, hsource⟩ := h.function hkind
  exact ⟨earlier, source, later ++ more, by simp, hsource⟩

/-- Behind one more entry the context knows it, and its target is made in the table. -/
theorem Behind.transformEntry {overrides : Bool} {entry : Entry} {result : Option Entry}
    {s s' : Session} (h : Behind rules before file earlier s)
    (hfresh : Fresh rules before file (earlier ++ [entry]))
    (hrun : transformEntry rules overrides entry s = .ok result s') :
    Behind rules before file (earlier ++ [entry]) s' ∧
      ∀ made ∈ result, MadeIn rules before file (earlier ++ [entry]) made := by
  obtain ⟨rfl, hknows⟩ := h
  have hnames := hfresh.named
  rw [seenIn_append, ← List.append_assoc] at hnames
  obtain ⟨hfile, hknows', hmade⟩ := hknows.transformEntry hnames hfresh.unpatched hrun
  refine ⟨⟨hfile, ?_⟩, fun made hmem => ?_⟩
  · rw [seenIn_append, ← List.append_assoc]
    exact hknows'
  · have hsource : entry.sourceName = none :=
      hfresh.sources entry (List.mem_append_right _ (List.mem_singleton.2 rfl))
    obtain ⟨hmembers, hfunction⟩ := hmade hsource made hmem
    refine ⟨hmembers, fun hkind => ?_⟩
    obtain ⟨hfunction, htarget⟩ := hfunction hkind
    exact ⟨earlier, entry, [], rfl, hfunction, htarget⟩

/-- Behind more overloads the context knows them, and their targets are made in the table. -/
theorem Behind.transformOverloads {entries results : List Entry} {s s' : Session}
    (h : Behind rules before file earlier s)
    (hfresh : Fresh rules before file (earlier ++ entries))
    (hrun : transformOverloads rules entries s = .ok results s') :
    Behind rules before file (earlier ++ entries) s' ∧
      ∀ made ∈ results, MadeIn rules before file (earlier ++ entries) made := by
  induction entries generalizing earlier results s with
  | nil =>
    cases hrun
    rw [List.append_nil]
    exact ⟨h, List.forall_mem_nil _⟩
  | cons entry entries ih =>
    rw [← List.singleton_append, ← List.append_assoc] at hfresh ⊢
    obtain ⟨result, between, hentry, hrun⟩ := exists_of_bind hrun
    obtain ⟨later, after, hlater, hrun⟩ := exists_of_bind hrun
    cases hrun
    obtain ⟨hbetween, hresult⟩ := h.transformEntry hfresh.left hentry
    obtain ⟨hafter, hmade⟩ := ih hbetween hfresh hlater
    refine ⟨hafter, fun made hmem => ?_⟩
    rcases List.mem_append.1 hmem with hmem | hmem
    · exact (hresult made (Option.mem_toList.1 hmem)).append entries
    · exact hmade made hmem

omit [CharacterNames] in
/-- Adding overloads brings in no other entries. -/
theorem mem_addOverloads {results : Entries} {entries : List Entry} {made : Entry}
    (h : made ∈ (addOverloads results entries).toList) :
    made ∈ entries ∨ made ∈ results.toList := by
  cases entries with
  | nil => exact Or.inr h
  | cons first more =>
    change made ∈ Entries.toList (Keyed.insertNew results first.name (.overloads first more)) at h
    unfold Keyed.insertNew at h
    split at h
    · exact Or.inr h
    · exact Entries.mem_toList_insert h

/-- The slots of a table: every function among the results is the target of one of their entries,
given those before it. -/
theorem Behind.transformEntries {results table out : Entries} {s s' : Session}
    (h : Behind rules before file earlier s)
    (hfresh : Fresh rules before file (earlier ++ table.toList))
    (hresults : ∀ made ∈ results.toList, MadeIn rules before file earlier made)
    (hrun : transformEntries rules results table s = .ok out s') :
    Behind rules before file (earlier ++ table.toList) s' ∧
      ∀ made ∈ out.toList, MadeIn rules before file (earlier ++ table.toList) made := by
  induction table generalizing earlier results s with
  | nil =>
    cases hrun
    rw [Entries.toList_nil, List.append_nil]
    exact ⟨h, hresults⟩
  | cons pair table ih =>
    obtain ⟨slotKey, slot⟩ := pair
    rw [Entries.toList_cons, ← List.append_assoc] at hfresh ⊢
    cases slot with
    | single entry =>
      obtain ⟨result, between, hentry, hrun⟩ := exists_of_bind hrun
      obtain ⟨hbetween, hmade⟩ := h.transformEntry hfresh.left hentry
      cases result with
      | none => exact ih hbetween hfresh (fun made hmem => (hresults made hmem).append _) hrun
      | some result =>
        obtain ⟨results', after, hadd, hrun⟩ := exists_of_bind hrun
        obtain ⟨hfile, hcontext, hmem⟩ := addResult_cases hadd
        -- adding the result changes neither the rules nor the maps
        have hafter : Behind rules before file (earlier ++ [entry]) after :=
          ⟨hfile.trans hbetween.file_eq, by rw [hcontext]; exact hbetween.knows⟩
        refine ih hafter hfresh (fun made hout => ?_) hrun
        rcases hmem made hout with rfl | hold
        · exact hmade made rfl
        · exact (hresults made hold).append _
    | overloads first more =>
      obtain ⟨entries, between, hentries, hrun⟩ := exists_of_bind hrun
      obtain ⟨hbetween, hmade⟩ := h.transformOverloads hfresh.left hentries
      refine ih hbetween hfresh (fun made hout => ?_) hrun
      rcases mem_addOverloads hout with hnew | hold
      · exact hmade made hnew
      · exact (hresults made hold).append _

/-! ## Files -/

omit [CharacterNames] in
/-- Merging brings in no other entries. -/
theorem mem_mergeFixed {table others : Entries} {made : Entry}
    (h : made ∈ (mergeFixed table others).1.toList) :
    made ∈ table.toList ∨ made ∈ others.toList := by
  induction others generalizing table with
  | nil => exact Or.inl h
  | cons pair others ih =>
    obtain ⟨key, slot⟩ := pair
    rw [Entries.toList_cons, List.mem_append]
    rw [mergeFixed] at h
    split at h
    · exact (ih h).imp id Or.inr
    · rcases ih h with hmem | hmem
      · rcases Entries.mem_toList_insert hmem with hmem | hmem
        · exact Or.inr (Or.inl hmem)
        · exact Or.inl hmem
      · exact Or.inr (Or.inr hmem)

omit [CharacterNames] in
/-- The fixed table holds fixed entries only. -/
theorem mem_fixedTable {made : Entry} (h : made ∈ (fixedTable file).toList) :
    ∃ entry ∈ file.fixedEntries, made = fixed entry := by
  rcases Entries.mem_toList_insertAll h with hmem | ⟨pair, hpair, hmem⟩
  · cases hmem
  · obtain ⟨entry, hentry, rfl⟩ := List.mem_map.1 hpair
    exact ⟨entry, hentry, List.mem_singleton.1 hmem⟩

/-- A function of a source file of a run, with all that the run goes through before it; the file has
the given target name. -/
inductive FunctionAt (rules : Rules) (files : Keyed Header) (name : String) :
    List Seen → Entry → Prop
  | intro {earlier later : Keyed Header} {fileKey : String} {source : Header} {key : Option String}
      {before behind : List Entry} {entry : Entry}
      (files_eq : files = earlier ++ (fileKey, source) :: later)
      (placed : placed? rules source.name = some (key, name))
      (entries_eq : source.entries.toList = before ++ entry :: behind)
      (kind : entry.kind = .function) :
      FunctionAt rules files name
        (seenOf rules earlier ++ seenIn rules (rules.fileRules key) before) entry

/-- A fixed entry of a file of a run, with all that the run goes through before it; the file has the
given target name. -/
inductive FixedAt (rules : Rules) (files : Keyed Header) (name : String) :
    List Seen → Entry → Prop
  | intro {earlier later : Keyed Header} {fileKey : String} {source : Header} {key : Option String}
      {entry : Entry}
      (files_eq : files = earlier ++ (fileKey, source) :: later)
      (placed : placed? rules source.name = some (key, name))
      (fixed : entry ∈ (rules.fileRules key).fixedEntries) :
      FixedAt rules files name (seenOf rules earlier) entry

/-- An entry of a target file is a fixed entry, or it has no members, and a function is the target
of a source function. -/
def Declared (rules : Rules) (files : Keyed Header) (name : String) (made : Entry) : Prop :=
  (∃ before entry, FixedAt rules files name before entry ∧ made = fixed entry) ∨
    made.members = none ∧ (made.kind = .function →
      ∃ before source, FunctionAt rules files name before source ∧
        FunctionTarget rules before source.toSignature made.toSignature)

theorem FunctionAt.append {files : Keyed Header} {name : String} {entry : Entry}
    (h : FunctionAt rules files name before entry) (more : Keyed Header) :
    FunctionAt rules (files ++ more) name before entry := by
  obtain ⟨rfl, hplaced, hentries, hkind⟩ := h
  exact .intro (by rw [List.append_assoc, List.cons_append]) hplaced hentries hkind

theorem FixedAt.append {files : Keyed Header} {name : String} {entry : Entry}
    (h : FixedAt rules files name before entry) (more : Keyed Header) :
    FixedAt rules (files ++ more) name before entry := by
  obtain ⟨rfl, hplaced, hfixed⟩ := h
  exact .intro (by rw [List.append_assoc, List.cons_append]) hplaced hfixed

/-- What some files declare more files declare. -/
theorem Declared.append {files : Keyed Header} {name : String} {made : Entry}
    (h : Declared rules files name made) (more : Keyed Header) :
    Declared rules (files ++ more) name made := by
  rcases h with ⟨before, entry, hfixed, hmade⟩ | ⟨hmembers, hfunction⟩
  · exact Or.inl ⟨before, entry, hfixed.append more, hmade⟩
  · refine Or.inr ⟨hmembers, fun hkind => ?_⟩
    obtain ⟨before, source, hsource, htarget⟩ := hfunction hkind
    exact ⟨before, source, hsource.append more, htarget⟩

omit [CharacterNames] in
/-- Rules with empty maps and without patches. -/
structure PlainRules (rules : Rules) : Prop where
  typeMap : rules.typeMap.getD [] = []
  paramTypeMap : rules.paramTypeMap.getD [] = []
  returnTypeMap : rules.returnTypeMap.getD [] = []
  unpatched : ∀ key name, (rules.fileRules key).patch? name = none

omit [CharacterNames] in
/-- A header of which every entry has a name and is no result of a former run. -/
structure SourceHeader (header : Header) : Prop where
  names : ∀ entry ∈ header.entries.toList, IsName entry.name
  sources : ∀ entry ∈ header.entries.toList, entry.sourceName = none

/-- One file of a run. -/
theorem Knows.transformFile {source header : Header} {run run' : Run} {key : Option String}
    {name : String} (h : Knows before run.context) (hnames : Named rules before)
    (hplain : PlainRules rules) (hrules : run.rules = rules) (hfresh : SourceHeader source)
    (hplaced : placed? rules source.name = some (key, name))
    (hrun : transformFile source run = .ok header run') :
    run'.rules = rules ∧ header.name = name ∧
      Knows (before ++ seenIn rules (rules.fileRules key) source.entries.toList) run'.context ∧
      ∀ made ∈ header.entries.toList,
        (∃ entry ∈ (rules.fileRules key).fixedEntries, made = fixed entry) ∨
          MadeIn rules before (rules.fileRules key) source.entries.toList made := by
  subst hrules
  obtain ⟨key', name', s, hplaced', hsteps, rfl⟩ := transformFile_cases hrun
  cases hplaced.symm.trans hplaced'
  obtain ⟨results, between, doc, hresults, -, rfl, hfile, hcontext⟩ := fileSteps_cases hsteps
  have hentries : Fresh run.rules before (run.rules.fileRules key)
      ([] ++ source.entries.toList) :=
    ⟨hplain.unpatched key, hnames, hfresh.names, hfresh.sources⟩
  -- no entry of this file has come yet
  have hbegun : Behind run.rules before (run.rules.fileRules key) []
      (begun source name (opened run key)) := by
    refine ⟨rfl, ?_⟩
    show Knows (before ++ []) run.context
    rw [List.append_nil]
    exact h
  obtain ⟨hbehind, hmade⟩ := hbegun.transformEntries hentries (List.forall_mem_nil _) hresults
  refine ⟨?_, rfl, ?_, fun made hmem => ?_⟩
  · show run.rules.setFileRules key s.file = run.rules
    rw [hfile, hbehind.file_eq]
    exact Rules.setFileRules_fileRules (contains_of_placed? hplaced)
  · show Knows _ s.context
    rw [hcontext]
    exact hbehind.knows
  · rcases mem_mergeFixed hmem with hfixed | hresult
    · exact Or.inl (mem_fixedTable hfixed)
    · exact Or.inr (hmade made hresult)

theorem seenOf_concat {files : Keyed Header} {pair : String × Header} {key : Option String}
    {name : String} (h : placed? rules pair.2.name = some (key, name)) :
    seenOf rules (files ++ [pair]) =
      seenOf rules files ++ seenIn rules (rules.fileRules key) pair.2.entries.toList := by
  unfold seenOf
  rw [List.flatMap_append, List.flatMap_singleton, h]

/-- What is seen of source headers has names. -/
theorem named_seenOf {files : Keyed Header} (hfresh : ∀ pair ∈ files, SourceHeader pair.2) :
    Named rules (seenOf rules files) := by
  induction files with
  | nil => exact ⟨List.forall_mem_nil _, List.forall_mem_nil _⟩
  | cons pair files ih =>
    obtain ⟨hpair, hfiles⟩ := List.forall_mem_cons.1 hfresh
    show Named rules ((match placed? rules pair.2.name with
      | some (key, _) => seenIn rules (rules.fileRules key) pair.2.entries.toList
      | none => []) ++ seenOf rules files)
    refine Named.append ?_ (ih hfiles)
    split
    · exact named_seenIn hpair.names
    · exact ⟨List.forall_mem_nil _, List.forall_mem_nil _⟩

omit [CharacterNames] in
/-- The maps that plain rules start with are empty. -/
theorem Knows.start (h : PlainRules rules) : Knows [] (Context.ofRules rules) := by
  unfold Context.ofRules
  rw [h.typeMap, h.paramTypeMap, h.returnTypeMap]
  refine ⟨fun type target => ⟨?_, ?_⟩, fun type target => ⟨?_, ?_⟩, fun type target => ⟨?_, ?_⟩⟩
  · rintro ⟨⟩
  · rintro ⟨form, source, name, ⟨-, -, seen, hseen, -⟩, -⟩
    cases hseen
  · rintro ⟨⟩
  · rintro ⟨form, -, source, name, ⟨⟩, -⟩
  · rintro ⟨⟩
  · rintro ⟨form, -, source, name, ⟨⟩, -⟩

/-- The files of a run. -/
theorem Knows.transformFiles {earlier files results out : Keyed Header} {run run' : Run}
    (h : Knows (seenOf rules earlier) run.context) (hplain : PlainRules rules)
    (hrules : run.rules = rules) (hfresh : ∀ pair ∈ earlier ++ files, SourceHeader pair.2)
    (hresults : ∀ pair ∈ results, ∀ made ∈ pair.2.entries.toList,
      Declared rules earlier pair.1 made)
    (hrun : transformFiles results files run = .ok out run') :
    ∀ pair ∈ out, ∀ made ∈ pair.2.entries.toList,
      Declared rules (earlier ++ files) pair.1 made := by
  induction files generalizing earlier results run with
  | nil =>
    cases hrun
    rw [List.append_nil]
    exact hresults
  | cons pair files ih =>
    obtain ⟨header, between, hheader, hrun⟩ := exists_of_bind hrun
    obtain ⟨key, name, -, hplaced, -, -⟩ := transformFile_cases hheader
    rw [hrules] at hplaced
    have hearlier : Named rules (seenOf rules earlier) :=
      named_seenOf fun pair hpair => hfresh pair (List.mem_append_left _ hpair)
    have hpair : SourceHeader pair.2 := hfresh pair (List.mem_append_right _ List.mem_cons_self)
    obtain ⟨hrules', rfl, hknows, hmade⟩ :=
      h.transformFile hearlier hplain hrules hpair hplaced hheader
    rw [← seenOf_concat hplaced] at hknows
    -- the file joins those before it
    have hassoc : earlier ++ pair :: files = earlier ++ [pair] ++ files := by simp
    rw [hassoc] at hfresh ⊢
    refine ih hknows hrules' hfresh (fun other hother made hmem => ?_) hrun
    rcases Keyed.mem_insert hother with rfl | hold
    · rcases hmade made hmem with ⟨entry, hentry, hfixed⟩ | hfresh
      · exact Or.inl ⟨_, entry, .intro rfl hplaced hentry, hfixed⟩
      · refine Or.inr ⟨hfresh.members, fun hkind => ?_⟩
        obtain ⟨before, source, behind, hentries, hsource, htarget⟩ := hfresh.function hkind
        exact ⟨_, source, .intro rfl hplaced hentries hsource, htarget⟩
    · exact (hresults other hold made hmem).append [pair]

/-- **Types of functions in the target.**  Under rules with empty maps and without patches, for an
interface whose entries have names and are no results of a former run, every entry of a target file
is a fixed entry of its file, or it has no members, and a function is the target of a source
function: its types are those of the source under the substitution that the entries before it
declare. -/
theorem transformApi_function_types {names : Option (List String)} {api : Api} {out : Outcome}
    (hplain : PlainRules rules) (hfresh : ∀ pair ∈ api.files, SourceHeader pair.2)
    (hrun : (transformApi rules names api).outcome = .ok out) {pair : String × Header}
    (hpair : pair ∈ out.api.files) {made : Entry} (hmade : made ∈ pair.2.entries.toList) :
    let files := api.files.filter fun pair => isSelected names pair.1
    (∃ before entry, FixedAt rules files pair.1 before entry ∧ made = fixed entry) ∨
      made.members = none ∧ (made.kind = .function →
        ∃ before source, FunctionAt rules files pair.1 before source ∧
          FunctionTarget rules before source.toSignature made.toSignature) := by
  obtain ⟨headers, run, hheaders, rfl⟩ := transformApi_cases hrun
  have hsource : ∀ pair ∈ api.files.filter fun pair => isSelected names pair.1,
      SourceHeader pair.2 := fun pair hpair => hfresh pair (List.mem_of_mem_filter hpair)
  have hstart : Knows (seenOf rules []) (Context.ofRules rules) := Knows.start hplain
  exact hstart.transformFiles hplain rfl hsource (List.forall_mem_nil _) hheaders pair hpair made
    hmade

end

/-- A header with a record. -/
def rectSource : Header where
  name := "SDL_rect.h"
  entries := [("SDL_Point", .single { name := "SDL_Point", kind := .struct })]

/-- A header with an alias, and a function that takes it and the record. -/
def moveSource : Header where
  name := "SDL_video.h"
  entries := [
    ("SDL_Window", .single {
      name := "SDL_Window", kind := .typeAlias, type := some "struct SDL_Window" }),
    ("SDL_Move", .single {
      name := "SDL_Move", kind := .function, type := some "SDL_Window *"
      parameters := some [.named "window" "SDL_Window *" none,
        .named "to" "const SDL_Point *" none, .raw "..."] })]

/-- The two headers. -/
def moveApi : Api where
  files := [("SDL_rect.h", rectSource), ("SDL_video.h", moveSource)]

/-- The fixed function of the second file. -/
def locate : EntryDraft :=
  ⟨⟨"locate", .function, none, .given "void", .given [.named "at" (some "SDL_Point *") .unset],
    .unset, .unset, .unset, .unset, .unset, .unset, .unset, .unset, .unset, .unset⟩, .unset⟩

/-- Rules that drop an opening and leave docs alone; the alias is a resource, and a function is
fixed. -/
def moveRules : Rules where
  prefixes := some ["SDL_"]
  docRules := some []
  files := some [("SDL_video.h", {
    includeAt := some ⟨some [locate]⟩
    types := some [("SDL_Window", .resource)] })]

/-- The function of the second file in the target. -/
def move : Entry where
  name := "Move"
  kind := .function
  type := some "Window"
  parameters := some [.named "window" "WindowRef" none, .named "to" "const Point *" none,
    .raw "..."]
  sourceName := some "SDL_Move"

/-- The target of the second header. -/
def moveVideo : Header where
  name := "video.hpp"
  doc := "@file video.hpp"
  entries := [
    ("locate", .single (fixed locate.entry)),
    ("WindowBase", .single {
      name := "WindowBase", kind := .struct, type := some "T"
      parameters := some [.raw "using T::T;"]
      template := some [.named "T" "class" none]
      sourceName := some "SDL_Window" }),
    ("Move", .single move)]

/-- The target of the two headers. -/
def moveTarget : Outcome where
  api := { files := [
    ("rect.hpp", {
      name := "rect.hpp"
      doc := "@file rect.hpp"
      entries := [("Point", .single {
        name := "Point", kind := .typeAlias, type := some "SDL_Point"
        sourceName := some "SDL_Point" })] }),
    ("video.hpp", moveVideo)] }
  warnings := []
  rules := moveRules

theorem transformApi_move : (transformApi moveRules none moveApi).outcome = .ok moveTarget := rfl

/-- The rules of the example have no type maps of their own. -/
theorem plainRules_move : PlainRules moveRules := by
  refine ⟨rfl, rfl, rfl, fun key name => ?_⟩
  cases key with
  | none => rfl
  | some key =>
    by_cases hkey : "SDL_video.h" = key
    · subst hkey
      rfl
    · simp [Rules.fileRules, moveRules, Keyed.find?, hkey, FileRules.patch?]

/-- The headers of the example are sources. -/
theorem sourceHeader_move : ∀ pair ∈ moveApi.files, SourceHeader pair.2 := by
  have hpoint : IsName "SDL_Point" := by decide
  have hwindow : IsName "SDL_Window" := by decide
  have hmove : IsName "SDL_Move" := by decide
  have hrect : SourceHeader rectSource :=
    ⟨List.forall_mem_singleton.2 hpoint, List.forall_mem_singleton.2 rfl⟩
  have hvideo : SourceHeader moveSource :=
    ⟨List.forall_mem_cons.2 ⟨hwindow, List.forall_mem_singleton.2 hmove⟩,
      List.forall_mem_cons.2 ⟨rfl, List.forall_mem_singleton.2 rfl⟩⟩
  exact List.forall_mem_cons.2 ⟨hrect, List.forall_mem_singleton.2 hvideo⟩

/-- A function with an alias, a resource and a pointer among its types. -/
theorem transformApi_function_types_move :
    PlainRules moveRules ∧ (∀ pair ∈ moveApi.files, SourceHeader pair.2) ∧
      (transformApi moveRules none moveApi).outcome = .ok moveTarget ∧
      ("video.hpp", moveVideo) ∈ moveTarget.api.files ∧ move ∈ moveVideo.entries.toList ∧
      move.kind = .function ∧
      ((∃ before entry, FixedAt moveRules moveApi.files "video.hpp" before entry ∧
          move = fixed entry) ∨
        move.members = none ∧ (move.kind = .function →
          ∃ before source, FunctionAt moveRules moveApi.files "video.hpp" before source ∧
            FunctionTarget moveRules before source.toSignature move.toSignature)) := by
  have hpair : ("video.hpp", moveVideo) ∈ moveTarget.api.files :=
    List.mem_cons_of_mem _ List.mem_cons_self
  have hmove : move ∈ moveVideo.entries.toList :=
    List.mem_cons_of_mem _ (List.mem_cons_of_mem _ List.mem_cons_self)
  exact ⟨plainRules_move, sourceHeader_move, transformApi_move, hpair, hmove, rfl,
    transformApi_function_types plainRules_move sourceHeader_move transformApi_move hpair hmove⟩

/-- A fixed function keeps its types, also those of entries before it that have other names. -/
theorem not_forall_function_types :
    ¬ ∀ (rules : Rules) (names : Option (List String)) (api : Api) (out : Outcome),
      PlainRules rules → (∀ pair ∈ api.files, SourceHeader pair.2) →
      (transformApi rules names api).outcome = .ok out →
      ∀ pair ∈ out.api.files, ∀ made ∈ pair.2.entries.toList, made.kind = .function →
        let files := api.files.filter fun pair => isSelected names pair.1
        ∃ before source,
          (FunctionAt rules files pair.1 before source ∨ FixedAt rules files pair.1 before source) ∧
          FunctionTarget rules before source.toSignature made.toSignature := by
  intro hall
  obtain ⟨before, source, hsource, htarget⟩ := hall moveRules none moveApi moveTarget
    plainRules_move sourceHeader_move transformApi_move ("video.hpp", moveVideo)
    (List.mem_cons_of_mem _ List.mem_cons_self) (fixed locate.entry) List.mem_cons_self rfl
  have hname : source.name = "locate" := (Option.some.inj htarget.sourceName).symm
  rcases hsource with hfunction | hfixed
  · -- No source function has the name of the fixed one.
    have hnames : ∀ pair ∈ moveApi.files, ∀ entry ∈ pair.2.entries.toList,
        entry.name ≠ "locate" := by decide
    obtain ⟨hfiles, -, hentries, -⟩ := hfunction
    have hmem : _ ∈ moveApi.files :=
      List.mem_of_mem_filter (hfiles ▸ List.mem_append_right _ List.mem_cons_self)
    have hentry : source ∈ _ := hentries ▸ List.mem_append_right _ List.mem_cons_self
    exact hnames _ hmem source hentry hname
  · obtain @⟨earlier, later, fileKey, header, key, _, hfiles, hplaced, hentry⟩ := hfixed
    change [("SDL_rect.h", rectSource), ("SDL_video.h", moveSource)] = _ at hfiles
    rcases earlier with _ | ⟨first, _ | ⟨second, rest⟩⟩
    · cases hfiles
      have hrect : placed? moveRules rectSource.name = some (none, "rect.hpp") := rfl
      rw [hrect] at hplaced
      have hsame : "rect.hpp" = "video.hpp" := congrArg Prod.snd (Option.some.inj hplaced)
      exact absurd hsame (by decide)
    · cases hfiles
      have hvideo : placed? moveRules moveSource.name =
          some (some "SDL_video.h", "video.hpp") := rfl
      rw [hvideo] at hplaced
      cases hplaced
      rw [List.mem_singleton.1 hentry] at htarget
      have hkept : TypeTarget (seenOf moveRules [("SDL_rect.h", rectSource)])
          (fun resource => resource ++ "Ref") "SDL_Point *" "SDL_Point *" := by
        have hparameters := htarget.parameters
        change Option.Rel _ (some [Parameter.named "at" "SDL_Point *" none])
          (some [Parameter.named "at" "SDL_Point *" none]) at hparameters
        cases hparameters with
        | some hparameters =>
          cases (List.forall₂_cons.1 hparameters).1 with
          | named htype => exact htype
      -- The record before has another name.
      have hpoint : RenamedBefore (seenOf moveRules [("SDL_rect.h", rectSource)]) "SDL_Point"
          "Point" :=
        ⟨by decide, by decide, ⟨{}, { name := "SDL_Point", kind := .struct }, "Point"⟩,
          List.mem_cons_self, rfl, rfl, rfl⟩
      have hrenamed : TypeTarget (seenOf moveRules [("SDL_rect.h", rectSource)])
          (fun resource => resource ++ "Ref") (TypeForm.pointer.spell "SDL_Point")
          (TypeForm.pointer.spell "Point") := .renamed hpoint fun _ => rfl
      have hnamed : Named moveRules (seenOf moveRules [("SDL_rect.h", rectSource)]) :=
        named_seenOf fun pair hpair => sourceHeader_move pair
          (List.mem_of_mem_head? (by rw [List.mem_singleton.1 hpair]; rfl))
      have hsame : "SDL_Point *" = "Point *" := hkept.unique hnamed hrenamed
      exact absurd hsame (by decide)
    · have hlength := congrArg List.length hfiles
      simp at hlength

end Transform

end HeaderApi
