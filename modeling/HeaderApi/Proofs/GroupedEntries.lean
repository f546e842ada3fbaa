import HeaderApi.Proofs.FunctionEntries

/-!
# The table of a scope

The entries of a scope come in turn: one for each declaration, and for a record without a name
those of its own table.  The table of the scope has their keys in the order in which they first
come.  Functions of one key are all kept, in order; of other entries with one key the first
documented one is kept.  So it is for the file and for the body of every record in it.
-/

namespace HeaderApi

open Text

/-! ## The slot of a key -/

/-- The entries of one key. -/
def withKey (key : String) (entries : List Entry) : List Entry :=
  entries.filter fun entry => entry.key = key

/-- The slot of functions: a function that is alone, or all overloads in order. -/
def Slot.ofFunctions? : List Entry → Option Slot
  | [] => none
  | [entry] => some (.single entry)
  | first :: second :: more => some (.overloads first (second :: more))

/-- The slot of other entries: the first one with a doc, or else the first one. -/
def Slot.ofOthers? (entries : List Entry) : Option Slot :=
  ((entries.find? fun entry => entry.doc ≠ "").or entries.head?).map .single

/-- What a table has when entries have come in turn. -/
structure Groups (entries : List Entry) (table : Entries) : Prop where
  keys : Keyed.keys table = (entries.map Entry.key).eraseDups
  functions : ∀ key, (∀ entry ∈ withKey key entries, entry.kind = .function) →
    Keyed.find? table key = Slot.ofFunctions? (withKey key entries)
  others : ∀ key, (∀ entry ∈ withKey key entries, entry.kind ≠ .function) →
    Keyed.find? table key = Slot.ofOthers? (withKey key entries)
  overloads : ∀ key first more, (key, Slot.overloads first more) ∈ table →
    more ≠ [] ∧ ∀ entry ∈ first :: more, entry.kind = .function ∧ entry.name = key
  /-- A table has nothing but the entries that have come, each under its key. -/
  kept : ∀ key slot, (key, slot) ∈ table → ∀ entry ∈ slot.toList, entry ∈ withKey key entries

section Groups

variable {entries : List Entry} {table : Entries} {entry : Entry} {key : String}

/-- What a slot becomes when an entry comes under its key. -/
def Slot.grow : Option Slot → Entry → Slot
  | none, entry => .single entry
  | some slot, entry => (slot.add? entry).getD slot

/-- A table after an entry has come, whether it is kept or not. -/
theorem Entries.getD_add? (table : Entries) (entry : Entry) :
    (table.add? entry).getD table =
      Keyed.insert table entry.key (Slot.grow (Keyed.find? table entry.key) entry) := by
  unfold Entries.add?
  cases hfind : Keyed.find? table entry.key with
  | none => rfl
  | some slot =>
    dsimp only [Slot.grow]
    cases hadd : slot.add? entry with
    | none => exact (Keyed.insert_of_find? hfind).symm
    | some result => rfl

/-- An entry behind others belongs to those of its key. -/
theorem withKey_concat (key : String) (entries : List Entry) (entry : Entry) :
    withKey key (entries ++ [entry]) =
      withKey key entries ++ if entry.key = key then [entry] else [] := by
  rw [withKey, withKey, List.filter_append]
  by_cases hkey : entry.key = key
  · rw [if_pos hkey, List.filter_cons_of_pos (by simpa using hkey), List.filter_nil]
  · rw [if_neg hkey, List.filter_cons_of_neg (by simpa using hkey), List.filter_nil]

theorem mem_withKey {other : Entry} :
    other ∈ withKey key entries ↔ other ∈ entries ∧ other.key = key := by
  rw [withKey, List.mem_filter, decide_eq_true_eq]

/-- One more function comes behind those before it. -/
theorem Slot.grow_function (hentries : ∀ other ∈ entries, other.kind = .function)
    (hentry : entry.kind = .function) :
    some (Slot.grow (Slot.ofFunctions? entries) entry) =
      Slot.ofFunctions? (entries ++ [entry]) := by
  match entries with
  | [] => rfl
  | [first] =>
    have hfirst := hentries first (List.mem_singleton_self first)
    rw [Slot.ofFunctions?, Slot.grow, Slot.add?, if_pos (by simp [hentry, hfirst])]
    rfl
  | first :: second :: more =>
    rw [Slot.ofFunctions?, Slot.grow, Slot.add?, if_pos hentry]
    rfl

/-- One more entry takes the place of the one that is kept when it is the first with a doc. -/
theorem Slot.grow_other (hentry : entry.kind ≠ .function) :
    some (Slot.grow (Slot.ofOthers? entries) entry) = Slot.ofOthers? (entries ++ [entry]) := by
  cases entries with
  | nil =>
    rw [Slot.ofOthers?, List.nil_append, Slot.ofOthers?]
    by_cases hdoc : entry.doc ≠ ""
    · rw [List.find?_cons_of_pos (by simpa using hdoc)]
      rfl
    · rw [List.find?_cons_of_neg (by simpa using hdoc)]
      rfl
  | cons first rest =>
    rw [Slot.ofOthers?, Slot.ofOthers?, List.find?_append, List.cons_append, List.head?_cons,
      List.head?_cons]
    -- With a documented entry the slot is settled; without one the kept entry is the first.
    cases hfind : (first :: rest).find? fun other => other.doc ≠ "" with
    | some documented =>
      have hdoc : documented.doc ≠ "" := by simpa using List.find?_some hfind
      rw [Option.some_or, Option.some_or, Option.some_or, Option.map_some, Slot.grow, Slot.add?,
        if_neg (by simp [hentry]), if_neg (by simp [hdoc])]
      rfl
    | none =>
      have hfirst : first.doc = "" := by
        simpa using List.find?_eq_none.mp hfind first List.mem_cons_self
      rw [Option.none_or, Option.none_or, Option.map_some, Slot.grow, Slot.add?,
        if_neg (by simp [hentry])]
      by_cases hdoc : entry.doc ≠ ""
      · rw [if_pos (by simp [hfirst, hdoc]), List.find?_cons_of_pos (by simpa using hdoc)]
        rfl
      · rw [if_neg (by simpa [hfirst] using hdoc), List.find?_cons_of_neg (by simpa using hdoc)]
        rfl

theorem groups_nil : Groups [] [] where
  keys := rfl
  functions _ _ := rfl
  others _ _ := rfl
  overloads := nofun
  kept := nofun

theorem Entry.key_of_function (h : entry.kind = .function) : entry.key = entry.name := by
  rw [Entry.key, if_neg (by rw [h]; decide)]

/-- A slot stays as it is, or it is the new entry, or a function comes behind those in it. -/
theorem Slot.grow_cases (before : Option Slot) (entry : Entry) :
    before = some (Slot.grow before entry) ∨ Slot.grow before entry = .single entry ∨
      entry.kind = .function ∧
        ((∃ current, before = some (.single current) ∧ current.kind = .function ∧
            Slot.grow before entry = .overloads current [entry]) ∨
          ∃ first more, before = some (.overloads first more) ∧
            Slot.grow before entry = .overloads first (more ++ [entry])) := by
  -- The cases are those of a slot: empty, with a single entry, or with overloads.
  match before with
  | none => exact Or.inr (Or.inl rfl)
  | some (.single current) =>
    unfold Slot.grow Slot.add?
    dsimp only
    split
    · rename_i hfunctions
      obtain ⟨hentry, hcurrent⟩ := Bool.and_eq_true_iff.mp hfunctions
      refine Or.inr (Or.inr ⟨of_decide_eq_true hentry, Or.inl ⟨current, rfl, ?_, rfl⟩⟩)
      exact of_decide_eq_true hcurrent
    · split
      · exact Or.inr (Or.inl rfl)
      · exact Or.inl rfl
  | some (.overloads first more) =>
    unfold Slot.grow Slot.add?
    dsimp only
    split
    · rename_i hentry
      exact Or.inr (Or.inr ⟨hentry, Or.inr ⟨first, more, rfl, rfl⟩⟩)
    · exact Or.inl rfl

/-- Where the slot of a key is found from its entries, it is found so after one more entry. -/
theorem find?_grow {sort : Entry → Prop} {slot? : List Entry → Option Slot}
    (hgrow : ∀ {entries entry}, (∀ other ∈ entries, sort other) → sort entry →
      some (Slot.grow (slot? entries) entry) = slot? (entries ++ [entry]))
    (h : ∀ key, (∀ other ∈ withKey key entries, sort other) →
      Keyed.find? table key = slot? (withKey key entries)) (entry : Entry) (key : String)
    (hall : ∀ other ∈ withKey key (entries ++ [entry]), sort other) :
    Keyed.find? (Keyed.insert table entry.key (Slot.grow (Keyed.find? table entry.key) entry)) key =
      slot? (withKey key (entries ++ [entry])) := by
  rw [withKey_concat] at hall ⊢
  rw [Keyed.find?_insert]
  by_cases hkey : entry.key = key
  · subst hkey
    rw [if_pos rfl] at hall
    obtain ⟨hbefore, hentry⟩ := List.forall_mem_append.mp hall
    rw [if_pos rfl, if_pos rfl, h entry.key hbefore]
    exact hgrow hbefore (hentry entry List.mem_cons_self)
  · rw [if_neg hkey, List.append_nil] at hall
    rw [if_neg hkey, if_neg hkey, List.append_nil]
    exact h key hall

/-- The entries of a slot have come under its key. -/
theorem Groups.mem_withKey_of_find? (h : Groups entries table) {slot : Slot} {other : Entry}
    (hfind : Keyed.find? table key = some slot) (hother : other ∈ slot.toList) :
    other ∈ withKey key entries :=
  h.kept key slot (Keyed.mem_of_find? hfind) other hother

/-- A slot that grows into a list of overloads has several functions of one name. -/
theorem Groups.overloads_grow (h : Groups entries table) {first : Entry} {more : List Entry}
    (hslot : Slot.grow (Keyed.find? table entry.key) entry = .overloads first more) :
    more ≠ [] ∧ ∀ other ∈ first :: more, other.kind = .function ∧ other.name = entry.key := by
  obtain hsame | hsingle | ⟨hentry, hgrown⟩ := Slot.grow_cases (Keyed.find? table entry.key) entry
  · rw [hslot] at hsame
    exact h.overloads _ _ _ (Keyed.mem_of_find? hsame)
  · cases hsingle.symm.trans hslot
  · have hself : entry.name = entry.key := (Entry.key_of_function hentry).symm
    obtain ⟨current, hfind, hcurrent, hgrow⟩ | ⟨first', more', hfind, hgrow⟩ := hgrown
    · cases hgrow.symm.trans hslot
      have hkey := (mem_withKey.mp (h.mem_withKey_of_find? hfind List.mem_cons_self)).2
      rw [Entry.key_of_function hcurrent] at hkey
      refine ⟨List.cons_ne_nil entry [], List.forall_mem_cons.mpr ⟨⟨hcurrent, hkey⟩, ?_⟩⟩
      exact List.forall_mem_singleton.mpr ⟨hentry, hself⟩
    · cases hgrow.symm.trans hslot
      obtain ⟨-, hall⟩ := h.overloads _ _ _ (Keyed.mem_of_find? hfind)
      refine ⟨List.append_ne_nil_of_right_ne_nil more' (List.cons_ne_nil entry []), ?_⟩
      rw [← List.cons_append]
      exact List.forall_mem_append.mpr ⟨hall, List.forall_mem_singleton.mpr ⟨hentry, hself⟩⟩

/-- A slot that grows keeps entries of its key or takes the new one. -/
theorem Groups.kept_grow (h : Groups entries table) {other : Entry}
    (hother : other ∈ (Slot.grow (Keyed.find? table entry.key) entry).toList) :
    other ∈ withKey entry.key entries ∨ other = entry := by
  obtain hsame | hsingle | ⟨-, hgrown⟩ := Slot.grow_cases (Keyed.find? table entry.key) entry
  · exact Or.inl (h.mem_withKey_of_find? hsame hother)
  · rw [hsingle] at hother
    exact Or.inr (List.mem_singleton.mp hother)
  · obtain ⟨current, hfind, -, hgrow⟩ | ⟨first, more, hfind, hgrow⟩ := hgrown
    · rw [hgrow, Slot.toList_overloads, List.mem_cons, List.mem_singleton] at hother
      refine hother.imp_left fun hcurrent => ?_
      exact h.mem_withKey_of_find? hfind (List.mem_singleton.mpr hcurrent)
    · rw [hgrow, Slot.toList_overloads, ← List.cons_append, List.mem_append,
        List.mem_singleton] at hother
      exact hother.imp_left (h.mem_withKey_of_find? hfind)

/-- **One entry** keeps the table grouped. -/
theorem Groups.add (h : Groups entries table) (entry : Entry) :
    Groups (entries ++ [entry]) ((table.add? entry).getD table) := by
  rw [Entries.getD_add?]
  constructor
  · rw [Keyed.keys_insert, h.keys, List.map_append, List.map_singleton, Keyed.eraseDups_concat]
    simp only [List.mem_eraseDups]
  · exact find?_grow Slot.grow_function h.functions entry
  · exact find?_grow (fun _ => Slot.grow_other) h.others entry
  · intro key first more hmem
    obtain heq | hold := Keyed.mem_insert hmem
    · obtain ⟨rfl, hslot⟩ := Prod.mk.inj heq
      exact h.overloads_grow hslot.symm
    · exact h.overloads key first more hold
  · intro key slot hmem other hother
    rw [withKey_concat, List.mem_append]
    obtain heq | hold := Keyed.mem_insert hmem
    · obtain ⟨rfl, rfl⟩ := Prod.mk.inj heq
      rw [if_pos rfl, List.mem_singleton]
      exact h.kept_grow hother
    · exact Or.inl (h.kept key slot hold other hother)

/-- **All entries.**  What comes in turn is grouped. -/
theorem groups_addAll (entries : List Entry) : Groups entries (Entries.addAll [] entries).1 := by
  induction entries using List.reverseRecOn with
  | nil => exact groups_nil
  | append_singleton entries entry ih =>
    have hlast : ∀ table : Entries, (table.addAll [entry]).1 = (table.add? entry).getD table := by
      intro table
      rw [Entries.addAll]
      cases table.add? entry with
      | none => rfl
      | some result => rfl
    rw [Header.addAll_append, hlast]
    exact ih.add entry

end Groups

/-! ## Records without a name -/

/-- The entries of a scope that stand for a declared one: for a record without a name those of its
table, in their order, and else the entry itself. -/
def Entry.standIns (entry : Entry) : List Entry :=
  match entry.members with
  | some members => if entry.name = "" then Entries.toList members else [entry]
  | none => [entry]

/-- A table in which each entry stands for itself. -/
def IsFlat (table : Entries) : Prop := ∀ entry ∈ table.toList, entry.hoisted = [entry]

theorem IsFlat.hoistedMembers_eq {table : Entries} (h : IsFlat table) :
    hoistedMembers table = table.toList := by
  rw [HeaderApi.hoistedMembers_eq, List.flatMap_congr h, List.flatMap_singleton']

/-- What is hoisted of an entry with flat members are its stand-ins. -/
theorem Entry.hoisted_eq_standIns {entry : Entry}
    (h : ∀ members, entry.members = some members → IsFlat members) :
    entry.hoisted = entry.standIns := by
  obtain ⟨signature, body⟩ := entry
  cases body with
  | none => rw [Entry.hoisted, Entry.standIns]
  | some members =>
    have hflat : IsFlat members := h members rfl
    rw [Entry.hoisted, hflat.hoistedMembers_eq]
    rfl

/-- What has been taken into a scope stands for itself there. -/
theorem isFlat_addAll (entries : List Entry) :
    IsFlat (Entries.addAll [] (entries.flatMap Entry.hoisted)).1 := by
  intro entry hentry
  have hmem : entry ∈ entries.flatMap Entry.hoisted := by
    simpa using (Entries.toList_addAll [] _).subset hentry
  obtain ⟨other, -, hother⟩ := List.mem_flatMap.mp hmem
  exact Entry.hoisted_of_mem other entry hother

/-! ## Tables at every depth -/

namespace Header

mutual

/-- The table of a scope: each declaration before the first end gives an entry, and these, or what
stands for them, are grouped. -/
inductive TableOf (options : ParseOptions) : List Token → Entries → Prop
  | mk {tokens : List Token} {table : Entries} (built : List (Token × Entry))
      (htokens : built.map Prod.fst = (Token.beforeEnd tokens).filter declares)
      (hbuilt : ∀ pair ∈ built, EntryOf options pair.1 pair.2)
      (hgroups : Groups (built.flatMap fun pair => pair.2.standIns) table) :
      TableOf options tokens table

/-- The entry of a declaration, with some doc comment and template.  A record has the table of its
body. -/
inductive EntryOf (options : ParseOptions) : Token → Entry → Prop
  | plain {token : Token} {s : Signature} {doc template : Option Pending}
      (hs : signature? token.statement = some s)
      (hplain : ∀ head, token.statement ≠ .record head) :
      EntryOf options token ⟨complete options doc template token s, none⟩
  | record {token : Token} {s : Signature} {doc template : Option Pending} {head : RecordHead}
      {inner : List Token} {members : Entries} (hs : signature? token.statement = some s)
      (hrecord : token.statement = .record head)
      (hinner : (Token.stream { enumerators := head.kind = .enum } head.bodyBegin
        head.body).outcome = .ok inner)
      (hmembers : TableOf options inner members) :
      EntryOf options token ⟨complete options doc template token s, some members⟩

end

section Tables

variable {options : ParseOptions} {members : String → RecordHead → Logged ParseError Entries}
  {b b' : Builder} {token : Token} {tokens : List Token} {built : List (Token × Entry)}
  {entry : Entry}

/-- The reader of bodies gives the tables of the bodies. -/
def ReadsTables (options : ParseOptions)
    (members : String → RecordHead → Logged ParseError Entries) : Prop :=
  ∀ name head, Ensures (fun table => IsFlat table ∧ ∃ inner,
    (Token.stream { enumerators := head.kind = .enum } head.bodyBegin head.body).outcome =
      .ok inner ∧ TableOf options inner table) (members name head)

/-- A token without members declares no record. -/
theorem not_record_of_bodyOf {name : String}
    (h : (bodyOf members name token).outcome = .ok none) (head : RecordHead) :
    token.statement ≠ .record head := by
  intro hrecord
  rw [bodyOf, hrecord] at h
  dsimp only at h
  cases hmembers : members name head with
  | mk log outcome =>
    rw [hmembers] at h
    cases outcome with
    | error e => cases h
    | ok found => cases h

/-- A built entry is the one of its token, and its stand-ins are hoisted. -/
theorem BuiltFrom.entryOf (h : BuiltFrom members options token entry)
    (hmembers : ReadsTables options members) :
    EntryOf options token entry ∧ entry.hoisted = entry.standIns := by
  obtain ⟨s, doc, template, name, hs, hsignature, hbody⟩ := h
  obtain ⟨signature, body⟩ := entry
  dsimp only at hsignature hbody
  subst hsignature
  cases body with
  | none => exact ⟨.plain hs (not_record_of_bodyOf hbody), Entry.hoisted_eq_standIns nofun⟩
  | some table =>
    obtain ⟨head, hrecord, hread⟩ := exists_of_bodyOf hbody
    obtain ⟨hflat, inner, hinner, htable⟩ := hmembers name head table hread
    refine ⟨.record hs hrecord hinner htable, Entry.hoisted_eq_standIns ?_⟩
    rintro _ ⟨⟩
    exact hflat

/-- Going through the tokens of a scope gives its table. -/
theorem Builder.Reads.tableOf (h : Builder.Reads members b (Token.beforeEnd tokens) built b')
    (hb : b.entries = []) (hmembers : ReadsTables b.options members) :
    IsFlat b'.entries ∧ TableOf b.options tokens b'.entries := by
  have hentry : ∀ pair ∈ built,
      EntryOf b.options pair.1 pair.2 ∧ pair.2.hoisted = pair.2.standIns :=
    fun pair hpair => (h.builtFrom hpair).entryOf hmembers
  have hstandIns : built.flatMap (fun pair => pair.2.hoisted) =
      built.flatMap fun pair => pair.2.standIns :=
    List.flatMap_congr fun pair hpair => (hentry pair hpair).2
  rw [h.entries_eq, hb]
  constructor
  · rw [← List.flatMap_map Prod.snd]
    exact isFlat_addAll _
  · refine .mk built h.map_fst (fun pair hpair => (hentry pair hpair).1) ?_
    rw [hstandIns]
    exact groups_addAll _

/-- At every depth the table of a record is the one of its body. -/
theorem membersOf_readsTables (options : ParseOptions) (fuel : Nat) :
    ReadsTables options (membersOf options fuel) := by
  refine membersOf_ensures options ?_ fuel
  rintro members hmembers head tokens b last built htokens rfl hempty hreads
  obtain ⟨hflat, htable⟩ := hreads.tableOf hempty hmembers
  exact ⟨hflat, tokens, htokens, htable⟩

end Tables

/-- **Grouping.**  The entries of a header, and the members of every record in it, have the keys of
what is declared in their scope in the order in which they first come.  Functions of one key are
all kept in order, and of other entries with one key the first documented one, or else the first
one. -/
theorem ofTokens_tableOf {name : String} {options : ParseOptions} {tokens : List Token}
    {header : Header} (h : (ofTokens name options tokens).outcome = .ok header) :
    TableOf options tokens header.entries := by
  obtain ⟨built, last, hreads, -, -, hentries⟩ := ofTokens_ensures name options tokens header h
  rw [hentries]
  exact (hreads.tableOf rfl (membersOf_readsTables options _)).2

/-- A function, an overload of it and a variable in a record without a name, and a variable of that
name with a doc. -/
def groupedTokens : List Token :=
  [⟨.function (numberHead "f" "int a"), 1, 2, 0⟩,
    ⟨.record {
        kind := .struct, name := "", base := ""
        body := ["float f();", "int g;"].map String.toList
        bodyBegin := 2 }, 2, 5, 0⟩,
    ⟨.var {
        name := "g", type := "int", initializer := none, doc := some "Documented."
        static := false, constexpr := false }, 5, 6, 0⟩,
    ⟨.eof, 6, 6, 0⟩]

/-- The keys of a table with the type and the doc of each entry. -/
def outline (table : Entries) : List (String × List (Option String × String)) :=
  table.map fun pair => (pair.1, pair.2.toList.map fun entry => (entry.type, entry.doc))

/-- Overloads make one slot, and of other repeated entries the documented one is kept. -/
theorem ofTokens_tableOf_overloads :
    ∃ header, (ofTokens "a.h" {} groupedTokens).outcome = .ok header ∧
      TableOf {} groupedTokens header.entries ∧
      outline header.entries =
        [("f", [(some "int", ""), (some "float", "")]), ("g", [(some "int", "Documented.")])] := by
  have hrun : ((ofTokens "a.h" {} groupedTokens).outcome.toOption.map fun header =>
      outline header.entries) = some
        [("f", [(some "int", ""), (some "float", "")]), ("g", [(some "int", "Documented.")])] := by
    decide +kernel
  cases h : (ofTokens "a.h" {} groupedTokens).outcome with
  | error e =>
    rw [h] at hrun
    cases hrun
  | ok header =>
    rw [h] at hrun
    exact ⟨header, rfl, ofTokens_tableOf h, Option.some.inj hrun⟩

end Header

end HeaderApi
