import Mathlib.Data.List.Perm.Subperm
import HeaderApi.Proofs.ParseErrors
import HeaderApi.Proofs.Tables

/-!
# The lines of entries

When line numbers are kept, every entry of a header has its lines: it begins with its doc comment,
its template or its declaration, and it ends with its declaration.  The members of a record lie
between the line that declares it and its end, at every depth, and the entries of one scope share
no line.
-/

namespace HeaderApi

open Text

/-! ## Lines of entries -/

/-- An entry that begins at `first`, is declared at `decl` and ends before `last`. -/
structure Signature.HasLines (s : Signature) (first decl last : Int) : Prop where
  begin_eq : s.beginLine = some first
  decl_eq : s.declLine = some decl
  end_eq : s.endLine = some last

/-- Whether a line belongs to an entry. -/
def Signature.Covers (s : Signature) (line : Int) : Prop :=
  ∃ first last, s.beginLine = some first ∧ s.endLine = some last ∧ first ≤ line ∧ line < last

/-- Two entries that share no line. -/
def Entry.Apart (a b : Entry) : Prop := ∀ line, ¬ (a.Covers line ∧ b.Covers line)

theorem Entry.Apart.symm {a b : Entry} (h : a.Apart b) : b.Apart a :=
  fun line hline => h line hline.symm

/-- An entry whose lines lie from `first` up to, but not including, `last`.  The lines of its
members lie from its declaration to its end, and no line belongs to two of them. -/
inductive Entry.Laid : Int → Int → Entry → Prop
  | intro {first last begins decl ends : Int} {entry : Entry}
      (lines : entry.HasLines begins decl ends) (le_begin : first ≤ begins)
      (begin_le : begins ≤ decl) (decl_lt : decl < ends) (end_le : ends ≤ last)
      (members : ∀ table, entry.members = some table →
        ∀ member ∈ Entries.toList table, Laid decl ends member)
      (apart : ∀ table, entry.members = some table →
        (Entries.toList table).Pairwise Entry.Apart) : Laid first last entry

/-- A list of entries that lie within some lines and share none. -/
structure LaidList (first last : Int) (entries : List Entry) : Prop where
  laid : ∀ entry ∈ entries, entry.Laid first last
  apart : entries.Pairwise Entry.Apart

section Laid

variable {first last first' last' : Int} {entry : Entry} {entries : List Entry}

/-- An entry within some lines is one within more lines. -/
theorem Entry.Laid.widen (h : entry.Laid first' last') (hfirst : first ≤ first')
    (hlast : last' ≤ last) : entry.Laid first last := by
  cases h with
  | intro lines le_begin begin_le decl_lt end_le members apart =>
    exact .intro lines (by omega) begin_le decl_lt (by omega) members apart

/-- The lines of an entry are within its bounds. -/
theorem Entry.Laid.of_covers (h : entry.Laid first last) {line : Int} (hline : entry.Covers line) :
    first ≤ line ∧ line < last := by
  cases h with
  | intro lines le_begin begin_le decl_lt end_le members apart =>
    obtain ⟨begins, ends, hbegin, hend, hge, hlt⟩ := hline
    have hfirst := Option.some.inj (lines.begin_eq.symm.trans hbegin)
    have hlast := Option.some.inj (lines.end_eq.symm.trans hend)
    constructor
    · omega
    · omega

/-- Entries on either side of a line share none. -/
theorem Entry.Laid.apart {other : Entry} (h : entry.Laid first last)
    (hother : other.Laid first' last') (hle : last ≤ first') : entry.Apart other := by
  intro line hline
  have hbefore := h.of_covers hline.1
  have hbehind := hother.of_covers hline.2
  omega

theorem LaidList.nil : LaidList first last [] := ⟨List.forall_mem_nil _, List.Pairwise.nil⟩

/-- One entry alone shares no line with others. -/
theorem LaidList.singleton (h : entry.Laid first last) : LaidList first last [entry] := by
  constructor
  · intro other hother
    rw [List.mem_singleton.1 hother]
    exact h
  · exact List.pairwise_singleton _ entry

theorem LaidList.widen (h : LaidList first' last' entries) (hfirst : first ≤ first')
    (hlast : last' ≤ last) : LaidList first last entries :=
  ⟨fun entry hentry => (h.laid entry hentry).widen hfirst hlast, h.apart⟩

/-- Entries before a line and entries behind it. -/
theorem LaidList.append {middle : Int} {later : List Entry} (h : LaidList first middle entries)
    (hlater : LaidList middle last later) (hfirst : first ≤ middle) (hlast : middle ≤ last) :
    LaidList first last (entries ++ later) := by
  constructor
  · intro entry hentry
    rcases List.mem_append.1 hentry with hentry | hentry
    · exact (h.laid entry hentry).widen (Int.le_refl first) hlast
    · exact (hlater.laid entry hentry).widen hfirst (Int.le_refl last)
  · refine List.pairwise_append.2 ⟨h.apart, hlater.apart, fun a ha b hb => ?_⟩
    exact (h.laid a ha).apart (hlater.laid b hb) (Int.le_refl middle)

/-- Neither the order of entries nor leaving some out matters. -/
theorem LaidList.subperm {some all : List Entry} (h : LaidList first last all)
    (hsome : some.Subperm all) : LaidList first last some := by
  constructor
  · intro entry hentry
    exact h.laid entry (hsome.subset hentry)
  · obtain ⟨reordered, hperm, hsublist⟩ := hsome
    have hreordered : reordered.Pairwise Entry.Apart := h.apart.sublist hsublist
    exact hreordered.perm hperm fun hab => hab.symm

end Laid

/-! ## Entries that are put into a table -/

/-- A key that is found stands between two parts of the table, and its value is replaced there. -/
theorem Keyed.exists_split {α : Type} {table : Keyed α} {key : String} {value : α}
    (h : Keyed.find? table key = some value) :
    ∃ before behind, table = before ++ (key, value) :: behind ∧
      ∀ other, Keyed.insert table key other = before ++ (key, other) :: behind := by
  induction table with
  | nil => cases h
  | cons pair table ih =>
    obtain ⟨k, v⟩ := pair
    rw [Keyed.find?] at h
    by_cases hk : k = key
    · rw [if_pos hk] at h
      cases h
      subst hk
      refine ⟨[], table, rfl, fun other => ?_⟩
      rw [Keyed.insert, if_pos rfl, List.nil_append]
    · rw [if_neg hk] at h
      obtain ⟨before, behind, htable, hinsert⟩ := ih h
      refine ⟨(k, v) :: before, behind, by rw [htable, List.cons_append], fun other => ?_⟩
      rw [Keyed.insert, if_neg hk, hinsert, List.cons_append]

theorem Entries.toList_append (first second : Entries) :
    Entries.toList (first ++ second) = first.toList ++ second.toList := List.flatMap_append

/-- A slot that takes in an entry holds no more than its entries and that one. -/
theorem Slot.toList_add? {slot result : Slot} {entry : Entry} (h : slot.add? entry = some result) :
    result.toList.Subperm (entry :: slot.toList) := by
  unfold Slot.add? at h
  split at h
  · rename_i first more
    split at h
    · cases h
      exact (List.perm_append_singleton entry (first :: more)).subperm
    · cases h
  · rename_i current
    split at h
    · cases h
      exact (List.perm_append_singleton entry [current]).subperm
    · split at h
      · cases h
        exact (List.singleton_sublist.2 List.mem_cons_self).subperm
      · cases h

/-- A table that takes in an entry holds no more than its entries and that one. -/
theorem Entries.toList_add? {table result : Entries} {entry : Entry}
    (h : table.add? entry = some result) : result.toList.Subperm (entry :: table.toList) := by
  unfold Entries.add? at h
  split at h
  · rename_i hnone
    cases h
    have hnew : entry.key ∉ Keyed.keys table := by
      intro hmem
      have hsome := Keyed.find?_isSome_iff.2 hmem
      rw [hnone] at hsome
      cases hsome
    rw [Keyed.insert_of_not_mem hnew, Entries.toList_append]
    exact (List.perm_append_singleton entry table.toList).subperm
  · rename_i slot hslot
    obtain ⟨slot', hadd, rfl⟩ := Option.map_eq_some_iff.1 h
    obtain ⟨before, behind, htable, hinsert⟩ := Keyed.exists_split hslot
    rw [hinsert, htable, Entries.toList_append, Entries.toList_append, Entries.toList_cons,
      Entries.toList_cons]
    have hslots : (slot'.toList ++ Entries.toList behind).Subperm
        (entry :: (slot.toList ++ Entries.toList behind)) :=
      (List.subperm_append_right _).2 (Slot.toList_add? hadd)
    exact ((List.subperm_append_left _).2 hslots).trans List.perm_middle.subperm

/-- A table to which entries are added holds no entry more often than these entries and the table
do. -/
theorem Entries.toList_addAll (table : Entries) (entries : List Entry) :
    (table.addAll entries).1.toList.Subperm (entries ++ table.toList) := by
  induction entries generalizing table with
  | nil => exact List.Subperm.refl _
  | cons entry entries ih =>
    rw [Entries.addAll]
    cases hadd : table.add? entry with
    | none => exact (ih table).trans (List.sublist_cons_self _ _).subperm
    | some result =>
      have hresult : (entries ++ Entries.toList result).Subperm
          (entries ++ entry :: table.toList) :=
        (List.subperm_append_left entries).2 (Entries.toList_add? hadd)
      exact ((ih result).trans hresult).trans List.perm_middle.subperm

/-- Entries behind all others are put into a table. -/
theorem LaidList.addAll {first middle last : Int} {table : Entries} {entries : List Entry}
    (h : LaidList first middle table.toList) (hentries : LaidList middle last entries)
    (hfirst : first ≤ middle) (hlast : middle ≤ last) :
    LaidList first last (table.addAll entries).1.toList := by
  have hall : LaidList first last (table.toList ++ entries) := h.append hentries hfirst hlast
  exact hall.subperm ((Entries.toList_addAll table entries).trans List.perm_append_comm.subperm)

/-! ## Members of records without a name -/

/-- What is hoisted of entries is what is hoisted of each of them in turn. -/
theorem hoistedList_eq (entries : List Entry) :
    hoistedList entries = entries.flatMap Entry.hoisted := by
  induction entries with
  | nil => rw [hoistedList, List.flatMap_nil]
  | cons entry entries ih => rw [hoistedList, List.flatMap_cons, ih]

/-- What is hoisted of a slot is what is hoisted of its entries. -/
theorem Slot.hoisted_eq (slot : Slot) : slot.hoisted = slot.toList.flatMap Entry.hoisted := by
  cases slot with
  | single entry => rw [Slot.hoisted, Slot.toList_single, List.flatMap_singleton]
  | overloads first more =>
    rw [Slot.hoisted, Slot.toList_overloads, List.flatMap_cons, hoistedList_eq]

/-- What is hoisted of a table is what is hoisted of its entries. -/
theorem hoistedMembers_eq (table : Entries) :
    hoistedMembers table = table.toList.flatMap Entry.hoisted := by
  induction table with
  | nil => rw [hoistedMembers, Entries.toList_nil, List.flatMap_nil]
  | cons pair table ih =>
    obtain ⟨key, slot⟩ := pair
    rw [hoistedMembers, ih, Entries.toList_cons, List.flatMap_append, Slot.hoisted_eq]

/-- The entries that stand for an entry lie where it does. -/
theorem Entry.Laid.hoisted {first last : Int} {entry : Entry} (h : entry.Laid first last) :
    LaidList first last entry.hoisted ∧
      ∀ inner ∈ entry.hoisted, ∀ line, inner.Covers line → entry.Covers line := by
  induction h with
  | @intro first last begins decl ends entry lines le_begin begin_le decl_lt end_le members apart
      ih =>
    have hself : entry.Laid first last :=
      .intro lines le_begin begin_le decl_lt end_le members apart
    obtain ⟨signature, table⟩ := entry
    cases table with
    | none =>
      rw [Entry.hoisted]
      refine ⟨.singleton hself, fun inner hinner line hline => ?_⟩
      rw [List.mem_singleton.1 hinner] at hline
      exact hline
    | some table =>
      rw [Entry.hoisted]
      split
      · rw [hoistedMembers_eq]
        -- What stands for the members lies within the record, and apart where they are.
        refine ⟨⟨fun inner hinner => ?_, ?_⟩, fun inner hinner line hline => ?_⟩
        · obtain ⟨member, hmember, hinner⟩ := List.mem_flatMap.1 hinner
          exact ((ih table rfl member hmember).1.laid inner hinner).widen (by omega) (by omega)
        · refine List.pairwise_flatMap.2 ⟨fun member hmember => ?_, ?_⟩
          · exact (ih table rfl member hmember).1.apart
          · refine (apart table rfl).imp_of_mem fun {a b} ha hb hab x hx y hy line hline => ?_
            exact hab line ⟨(ih table rfl a ha).2 x hx line hline.1,
              (ih table rfl b hb).2 y hy line hline.2⟩
        · obtain ⟨member, hmember, hinner⟩ := List.mem_flatMap.1 hinner
          have hwithin := (members table rfl member hmember).of_covers
            ((ih table rfl member hmember).2 inner hinner line hline)
          exact ⟨begins, ends, lines.begin_eq, lines.end_eq, by omega, by omega⟩
      · refine ⟨.singleton hself, fun inner hinner line hline => ?_⟩
        rw [List.mem_singleton.1 hinner] at hline
        exact hline

/-! ## Builders -/

/-- Tokens do not end before the line where they begin. -/
theorem Token.Tiles.le {first last : Int} {tokens : List Token}
    (h : Token.Tiles first last tokens) :
    first ≤ last := by
  induction h with
  | eof heof hbegin hend => exact Int.le_refl _
  | cons hne hadvance hlater ih => omega

namespace Header

variable {α β : Type} {first middle line last : Int}

/-- A builder that has read up to a line.  Its entries lie before the line `middle`, and the doc
comment and the template that wait lie behind it. -/
structure Builder.Laid (first middle line : Int) (b : Builder) : Prop where
  stores : b.options.storeLineNumbers = true
  first_le : first ≤ middle
  le_line : middle ≤ line
  entries : LaidList first middle b.entries.toList
  doc : ∀ doc, b.pendingDoc = some doc → middle ≤ doc.beginLine ∧ doc.beginLine ≤ doc.endLine
  template : ∀ t, b.template = some t → middle ≤ t.beginLine ∧ t.beginLine ≤ line

/-- What no declaration changes: the options and the entries stay, no doc comment waits, and no
template but the one that waited. -/
structure Builder.Passes (b b' : Builder) : Prop where
  options : b'.options = b.options
  entries : b'.entries = b.entries
  doc : b'.pendingDoc = none
  template : ∀ t, b'.template = some t → b.template = some t

section Builder

variable {b b' : Builder}

/-- A builder that passes on is laid on a later line. -/
theorem Builder.Laid.passes (h : b.Laid first middle line) (hpass : b.Passes b') {line' : Int}
    (hline : line ≤ line') : b'.Laid first middle line' := by
  constructor
  · rw [hpass.options]
    exact h.stores
  · exact h.first_le
  · exact Int.le_trans h.le_line hline
  · rw [hpass.entries]
    exact h.entries
  · intro doc hdoc
    rw [hpass.doc] at hdoc
    cases hdoc
  · intro t ht
    obtain ⟨hge, hle⟩ := h.template t (hpass.template t ht)
    exact ⟨hge, Int.le_trans hle hline⟩

/-- A builder that lets its doc float passes on. -/
theorem Builder.passes_floatPending (b : Builder) : b.Passes b.floatPending.1 := by
  obtain ⟨_, _, _, hfloat⟩ := b.floatPending_eq
  rw [hfloat]
  exact ⟨rfl, rfl, rfl, fun _ ht => ht⟩

/-- Behind a statement that is passed over nothing waits, and the doc comment before it floats. -/
theorem Builder.pass_ensures (b : Builder) (token : Token) :
    Ensures (fun next => b.Passes next ∧ next.template = none ∧
      next.doc = b.floatPending.1.doc) (b.pass token) := by
  intro next hnext
  have hdoc := b.doc_floatPending_template none
  obtain ⟨_, _, _, hfloat⟩ := Builder.floatPending_eq { b with template := none }
  obtain ⟨_, _, _, hpast⟩ :=
    Builder.passOver_eq (Builder.floatPending { b with template := none }).1 token
  rw [b.pass_eq token next hnext, hpast, ← hdoc, hfloat]
  exact ⟨⟨rfl, rfl, rfl, nofun⟩, rfl, rfl⟩

/-! ## Declarations -/

/-- A builder that takes a doc passes on. -/
theorem Builder.passes_takeDoc (b : Builder) (doc : Option Pending) :
    b.Passes (b.takeDoc doc).1 := by
  obtain ⟨_, _, _, htaken⟩ := b.takeDoc_eq doc
  rw [htaken]
  exact ⟨rfl, rfl, rfl, fun _ ht => ht⟩

/-- The template of a builder begins no later than the token that comes next. -/
theorem Builder.Laid.firstLine (h : b.Laid first middle line) {token : Token}
    (hbegin : token.beginLine = line) :
    middle ≤ b.firstLine token ∧ b.firstLine token ≤ line := by
  unfold Builder.firstLine
  cases ht : b.template with
  | none =>
    rw [Option.map_none, Option.getD_none, hbegin]
    exact ⟨h.le_line, Int.le_refl line⟩
  | some t => exact h.template t ht

/-- An entry begins with its doc comment, or else with its template, or else with its
declaration. -/
theorem complete_hasLines {options : ParseOptions} (hstore : options.storeLineNumbers = true)
    (doc template : Option Pending) (token : Token) (s : Signature) :
    (complete options doc template token s).HasLines
      ((doc.map Pending.beginLine).getD ((template.map Pending.beginLine).getD token.beginLine))
      token.beginLine token.endLine := by
  unfold complete withLines
  rw [if_pos hstore]
  cases doc with
  | some doc => exact ⟨rfl, rfl, rfl⟩
  | none =>
    cases template with
    | some t => exact ⟨rfl, rfl, rfl⟩
    | none => exact ⟨rfl, rfl, rfl⟩

/-- The body of a record, whose entries lie within its lines. -/
def BodyLaid (token : Token) (body : Option Entries) : Prop :=
  ∀ table, body = some table → LaidList token.beginLine token.endLine table.toList

/-- The members of a body lie within the lines of its token. -/
theorem bodyOf_laid {members : String → RecordHead → Logged ParseError Entries} {token : Token}
    (hmembers : ∀ head, token.statement = .record head → ∀ name,
      Ensures (fun table => LaidList token.beginLine token.endLine table.toList)
        (members name head)) (name : String) :
    Ensures (BodyLaid token) (bodyOf members name token) := by
  unfold bodyOf
  split
  · rename_i head hhead
    refine (hmembers head hhead name).bind fun table htable => Ensures.pure ?_
    rintro _ ⟨⟩
    exact htable
  · refine Ensures.pure ?_
    rintro _ ⟨⟩

/-- The entry of a declaration is put behind all others. -/
theorem Builder.Laid.enter (h : b.Laid first middle line) (hdoc : b.pendingDoc = none)
    {token : Token} (hbegin : token.beginLine = line) (hadvance : token.beginLine < token.endLine)
    {doc : Option Pending}
    (hwaits : ∀ d, doc = some d → middle ≤ d.beginLine ∧ d.beginLine ≤ line)
    {body : Option Entries} (hbody : BodyLaid token body) (s : Signature) :
    Builder.Laid first token.endLine token.endLine (b.enter doc token s body).1 := by
  obtain ⟨hfrom, hto⟩ := h.firstLine hbegin
  have hlines := complete_hasLines h.stores doc b.template token s
  have hbegins : middle ≤ (doc.map Pending.beginLine).getD (b.firstLine token) ∧
      (doc.map Pending.beginLine).getD (b.firstLine token) ≤ line := by
    cases doc with
    | none => exact ⟨hfrom, hto⟩
    | some d => exact hwaits d rfl
  have hdecl : (doc.map Pending.beginLine).getD (b.firstLine token) ≤ token.beginLine := by omega
  have hentry : Entry.Laid middle token.endLine ⟨complete b.options doc b.template token s, body⟩ :=
    .intro hlines hbegins.1 hdecl hadvance (Int.le_refl _)
      (fun table htable => (hbody table htable).laid)
      (fun table htable => (hbody table htable).apart)
  have hle := h.le_line
  have hfirst := h.first_le
  have hentries : LaidList first token.endLine
      (b.entries.addAll
        (Entry.hoisted ⟨complete b.options doc b.template token s, body⟩)).1.toList :=
    h.entries.addAll hentry.hoisted.1 hfirst (by omega)
  obtain ⟨_, _, henter⟩ := b.enter_eq doc token s body
  rw [henter]
  exact ⟨h.stores, by omega, Int.le_refl _, hentries,
    fun d hd => absurd (hdoc.symm.trans hd) nofun, nofun⟩

/-- A declaration adds an entry with the lines of its token, behind the entries before. -/
theorem Builder.Laid.declare {members : String → RecordHead → Logged ParseError Entries}
    {token : Token} (h : b.Laid first middle line) (hbegin : token.beginLine = line)
    (hadvance : token.beginLine < token.endLine)
    (hmembers : ∀ head, token.statement = .record head → ∀ name,
      Ensures (fun table => LaidList token.beginLine token.endLine table.toList)
        (members name head)) (s : Signature) :
    Ensures (Builder.Laid first token.endLine token.endLine) (b.declare members token s) := by
  unfold Builder.declare
  refine Ensures.andThen fun _ => (bodyOf_laid hmembers _).bind fun body hbody => ?_
  refine Ensures.andThen fun _ => Ensures.pure ?_
  have htake := b.passes_takeDoc (b.docFor (b.firstLine token))
  have hpassed := h.passes htake (Int.le_refl line)
  refine hpassed.enter htake.doc hbegin hadvance (fun d hd => ?_) hbody s
  -- The doc comment ends where the declaration begins.
  obtain ⟨-, hto⟩ := h.firstLine hbegin
  obtain ⟨hpending, hends⟩ := Option.filter_eq_some_iff.1 hd
  have hends : d.endLine = b.firstLine token := of_decide_eq_true hends
  obtain ⟨hge, hle⟩ := h.doc d hpending
  exact ⟨hge, by omega⟩

/-! ## Token streams -/

/-- What the tokens say of the bodies of their records: they are read within the lines of the
token. -/
def BodiesLaid (members : String → RecordHead → Logged ParseError Entries) (tokens : List Token) :
    Prop :=
  ∀ token ∈ tokens, ∀ head, token.statement = .record head → ∀ name,
    Ensures (fun table => LaidList token.beginLine token.endLine table.toList) (members name head)

/-- Reading tokens that tile some lines keeps the entries within these lines. -/
theorem Builder.Laid.run {members : String → RecordHead → Logged ParseError Entries}
    {tokens : List Token} (h : b.Laid first middle line) (htiles : Token.Tiles line last tokens)
    (hbodies : BodiesLaid members tokens) :
    Ensures (fun b' => LaidList first last b'.entries.toList) (b.run members tokens) := by
  -- The line `middle` stays until a declaration is read; then it moves to the end of the token.
  induction htiles generalizing b middle with
  | eof heof hbegin hend =>
    rw [Builder.run, heof]
    exact .pure (h.entries.widen (Int.le_refl first) h.le_line)
  | @cons last token tokens hne hadvance hlater ih =>
    have hbodiesLater : BodiesLaid members tokens :=
      fun t ht => hbodies t (List.mem_cons_of_mem token ht)
    have hle := hlater.le
    have hlast : middle ≤ last := by
      have := h.le_line
      omega
    rw [Builder.run]
    split
    · rename_i heof
      exact absurd heof hne
    · exact .pure (h.entries.widen (Int.le_refl first) hlast)
    · refine Ensures.andThen fun _ => @ih middle _ ?_ hbodiesLater
      have hpass := h.passes b.passes_floatPending (Int.le_of_lt hadvance)
      refine ⟨hpass.stores, hpass.first_le, hpass.le_line, hpass.entries, ?_, hpass.template⟩
      rintro _ ⟨⟩
      exact ⟨h.le_line, Int.le_of_lt hadvance⟩
    · refine Ensures.andThen fun _ => @ih middle _ ?_ hbodiesLater
      have hmiddle := h.le_line
      refine ⟨h.stores, h.first_le, by omega, h.entries, h.doc, ?_⟩
      rintro _ ⟨⟩
      exact ⟨hmiddle, Int.le_of_lt hadvance⟩
    · split
      · rename_i s _
        refine (h.declare rfl hadvance (hbodies token List.mem_cons_self) s).bind fun b' hb' => ?_
        exact ih hb' hbodiesLater
      · refine (b.pass_ensures token).bind fun b' hb' => ?_
        exact ih (h.passes hb'.1 (Int.le_of_lt hadvance)) hbodiesLater

end Builder

/-! ## Bodies at any depth -/

/-- The tokens of some lines, the first of which has the given number. -/
theorem stream_ensures (mode : Token.Mode) (lines : List Line) :
    Ensures (Token.Run mode (.start first lines))
      ((Token.stream mode first lines).mapError ParseError.malformed) := by
  intro tokens htokens
  cases h : (Token.stream mode first lines).outcome with
  | error e =>
    rw [Logged.mapError, h] at htokens
    cases htokens
  | ok tokens' =>
    rw [Logged.mapError, h] at htokens
    cases htokens
    exact Token.run_of_streamFrom h

/-- Reading all tokens of some lines keeps the entries within these lines. -/
theorem Builder.Laid.runAll {mode : Token.Mode} {lines : List Line} {tokens : List Token}
    {members : String → RecordHead → Logged ParseError Entries} {b : Builder}
    (hrun : Token.Run mode (.start first lines) tokens) (hstore : b.options.storeLineNumbers = true)
    (hentries : b.entries = []) (hdoc : b.pendingDoc = none) (htemplate : b.template = none)
    (hmembers : ∀ name head, Ensures (fun table =>
      LaidList head.bodyBegin (head.bodyBegin + head.body.length) table.toList)
        (members name head)) :
    Ensures (fun b' => LaidList first (first + lines.length) b'.entries.toList)
      (b.runAll members tokens) := by
  have hstart : b.Laid first first first := by
    refine ⟨hstore, Int.le_refl _, Int.le_refl _, ?_, ?_, ?_⟩
    · rw [hentries]
      exact .nil
    · rintro d hd
      cases hdoc.symm.trans hd
    · rintro t ht
      cases htemplate.symm.trans ht
  have hbodies : BodiesLaid members tokens := by
    intro token htoken head hhead name table htable
    have hne : token.statement ≠ .eof := by
      rw [hhead]
      exact nofun
    obtain ⟨-, -, -, hbody⟩ := hrun.start_bounds htoken hne
    obtain ⟨hfrom, hto, -⟩ := hbody head hhead
    exact (hmembers name head table htable).widen hfrom hto
  unfold Builder.runAll
  refine (hstart.run hrun.tiles hbodies).bind fun b' hb' => ?_
  exact Ensures.andThen fun _ => .pure hb'

/-- The members of a record lie within its body. -/
theorem membersOf_laid {options : ParseOptions} (hstore : options.storeLineNumbers = true)
    (fuel : Nat) (name : String) (head : RecordHead) :
    Ensures (fun table => LaidList head.bodyBegin (head.bodyBegin + head.body.length) table.toList)
      (membersOf options fuel name head) := by
  induction fuel generalizing name head with
  | zero =>
    rintro table ⟨⟩
  | succ fuel ih =>
    rw [membersOf]
    refine (stream_ensures _ head.body).bind fun tokens hrun => ?_
    exact (Builder.Laid.runAll hrun hstore rfl rfl rfl ih).bind fun b hb => .pure hb

/-- The entries of a header lie within its lines and share none. -/
theorem ofLines_laid {options : ParseOptions} (hstore : options.storeLineNumbers = true)
    (name : String) (lines : List Line) :
    Ensures (fun header => LaidList 1 (1 + lines.length) header.entries.toList)
      (ofLines name options lines) := by
  unfold ofLines
  refine (stream_ensures {} lines).bind fun tokens hrun => ?_
  unfold ofTokens
  exact (Builder.Laid.runAll hrun hstore rfl rfl rfl (membersOf_laid hstore _)).bind
    fun b hb => .pure hb

end Header

/-! ## Entries at any depth -/

/-- An entry of a table, or of the members of one of its entries, at any depth. -/
inductive Entries.Holds : Entries → Entry → Prop
  | here {table : Entries} {entry : Entry} (h : entry ∈ table.toList) : Holds table entry
  | deeper {table members : Entries} {record entry : Entry} (h : record ∈ table.toList)
      (hmembers : record.members = some members) (hentry : Holds members entry) : Holds table entry

/-- An entry at any depth lies within the lines of the table. -/
theorem LaidList.of_holds {first last : Int} {table : Entries} {entry : Entry}
    (h : LaidList first last table.toList) (hentry : table.Holds entry) :
    entry.Laid first last := by
  induction hentry generalizing first last with
  | here hmem => exact h.laid _ hmem
  | deeper hmem hmembers hentry ih =>
    cases h.laid _ hmem with
    | intro lines le_begin begin_le decl_lt end_le members apart =>
      have hinner := ih ⟨members _ hmembers, apart _ hmembers⟩
      exact hinner.widen (by omega) end_le

/-- **The lines of entries.**  When line numbers are kept, every entry of a header, at any depth,
begins no later than it is declared and ends behind its declaration, within the lines of the
header.  What a record holds, at any depth, lies from its declaration to its end.  And no line
belongs to two entries of one table, be it that of the header or that of a record. -/
theorem Header.ofLines_line_ranges {name : String} {options : ParseOptions} {lines : List Line}
    {header : Header} (hstore : options.storeLineNumbers = true)
    (h : (Header.ofLines name options lines).outcome = .ok header) :
    (∀ entry, header.entries.Holds entry → ∃ begins decl ends,
      entry.HasLines begins decl ends ∧ 1 ≤ begins ∧ begins ≤ decl ∧ decl < ends ∧
        ends ≤ lines.length + 1) ∧
    (∀ record members entry, header.entries.Holds record → record.members = some members →
      Entries.Holds members entry → ∃ begins decl ends begins' decl' ends',
        record.HasLines begins decl ends ∧ entry.HasLines begins' decl' ends' ∧
          decl ≤ begins' ∧ ends' ≤ ends) ∧
    header.entries.toList.Pairwise Entry.Apart ∧
    ∀ record members, header.entries.Holds record → record.members = some members →
      (Entries.toList members).Pairwise Entry.Apart := by
  have hlaid := Header.ofLines_laid hstore name lines header h
  refine ⟨fun entry hentry => ?_, fun record members entry hrecord hmembers hentry => ?_,
    hlaid.apart, fun record members hrecord hmembers => ?_⟩
  · cases hlaid.of_holds hentry with
    | intro lines le_begin begin_le decl_lt end_le members apart =>
      exact ⟨_, _, _, lines, le_begin, begin_le, decl_lt, by omega⟩
  · cases hlaid.of_holds hrecord with
    | intro lines le_begin begin_le decl_lt end_le within apart =>
      have hinner : LaidList _ _ (Entries.toList members) :=
        ⟨within _ hmembers, apart _ hmembers⟩
      cases hinner.of_holds hentry with
      | intro lines' le_begin' begin_le' decl_lt' end_le' within' apart' =>
        exact ⟨_, _, _, _, _, _, lines, lines', le_begin', end_le'⟩
  · cases hlaid.of_holds hrecord with
    | intro lines le_begin begin_le decl_lt end_le within apart => exact apart members hmembers

/-- A record with a doc comment, a record and a union without names in it, and two overloads. -/
def shapeLines : List Line :=
  ["/// A shape.", "struct Shape", "\x7b", "  /// Where.", "  int x;", "  struct \x7b",
    "    int a;", "    int b;", "  \x7d;", "  union \x7b int c; \x7d;", "\x7d;", "",
    "void f(int a);", "void f(float a);"].map String.toList

/-- The names and lines of the entries of a table, and of the members of each. -/
def Entries.lineTable (table : Entries) :
    List ((String × List (Option Int)) × List (String × List (Option Int))) :=
  let row (entry : Entry) := (entry.name, [entry.beginLine, entry.declLine, entry.endLine])
  table.toList.map fun entry => (row entry, (Entries.toList (entry.members.getD [])).map row)

/-- The lines of a record with members of all kinds and of two overloads. -/
theorem Header.ofLines_line_ranges_shape :
    ∃ header,
      (Header.ofLines "shape.h" { storeLineNumbers := true } shapeLines).outcome = .ok header ∧
      header.entries.lineTable = [
        (("Shape", [some 1, some 2, some 13]), [("x", [some 4, some 5, some 6]),
          ("a", [some 7, some 7, some 8]), ("b", [some 8, some 8, some 9]),
          ("c", [some 10, some 10, some 11])]),
        (("f", [some 13, some 13, some 14]), []), (("f", [some 14, some 14, some 15]), [])] ∧
      (∀ entry, header.entries.Holds entry → ∃ begins decl ends,
        entry.HasLines begins decl ends ∧ 1 ≤ begins ∧ begins ≤ decl ∧ decl < ends ∧
          ends ≤ 14 + 1) ∧
      header.entries.toList.Pairwise Entry.Apart := by
  have htable : (match
      (Header.ofLines "shape.h" { storeLineNumbers := true } shapeLines).outcome with
      | .ok header => header.entries.lineTable
      | .error _ => []) = [
        (("Shape", [some 1, some 2, some 13]), [("x", [some 4, some 5, some 6]),
          ("a", [some 7, some 7, some 8]), ("b", [some 8, some 8, some 9]),
          ("c", [some 10, some 10, some 11])]),
        (("f", [some 13, some 13, some 14]), []), (("f", [some 14, some 14, some 15]), [])] := by
    decide +kernel
  cases h : (Header.ofLines "shape.h" { storeLineNumbers := true } shapeLines).outcome with
  | error e =>
    rw [h] at htable
    cases htable
  | ok header =>
    rw [h] at htable
    obtain ⟨hlines, -, hapart, -⟩ := Header.ofLines_line_ranges rfl h
    exact ⟨header, rfl, htable, hlines, hapart⟩

end HeaderApi
